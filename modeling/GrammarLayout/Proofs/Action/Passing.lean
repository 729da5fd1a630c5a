import GrammarLayout.Proofs.Action.Pieces

/-!
# Lexemes in the eyes of the action scanner

The end of an options, tokens or channels block is found by the scanner for actions, although what
is inside is read as lexemes. The two agree as long as the block holds only lexemes that the scanner
for actions passes without noticing: words, numbers, punctuation, string literals and comments
(`passes_plain`). Sets and characters that start no lexeme are among them only if they hold no
quotes, slashes, backslashes or braces.

Passing is a property of a text and of what follows it: the scanner reads the text in pieces that
end where the text ends, and leaves as many braces open as there were, whatever that number is
(`Action.Passes`). It composes (`Passes.append`), so that a body is passed if its lexemes are, and
it holds of a whole action with its braces (`Passes.of_action`), which is how nested blocks are
dealt with.

Two lexemes need more than their own text. A line comment must be followed by a line end, else it
would reach further for the scanner; a block comment must have its terminator. A string literal that
is closed is a literal in both readings, since a backslash takes the next character along in both
(`literal?_of_items`). Everything else is read character by character, and its characters mean
nothing to the scanner.
-/

namespace GrammarLayout

/-- Whether a character means nothing to the scanner for actions. -/
def Action.isMute (c : Char) : Bool :=
  !(['\'', '"', '/', '\\', '\x7b', '\x7d'].contains c)

/-- Whether a segment may stand in a block without moving its end. Pieces of actions may, because
actions are closed before the block is. -/
def Segment.isCalm (s : Segment) : Bool :=
  match s.kind with
  | .lbrace | .rbrace | .eof => false
  | .charSet => s.text.all Action.isMute
  | .unknown => s.text.all fun c ↦ Action.isMute c && c != '['
  | _ => true

namespace Action

/-- The scanner reads a text in pieces that leave as many braces open as before. -/
def Passes (text rest : List Char) : Prop :=
  ∃ ps, ps.flatten = text ∧ ReadAll ps rest ∧ ∀ depth, depthThrough depth ps = some depth

/-- Braces are counted through one text after the other. -/
theorem depthThrough_append (depth : Nat) (ps ps' : List (List Char)) :
    depthThrough depth (ps ++ ps') = (depthThrough depth ps).bind fun d ↦ depthThrough d ps' := by
  induction ps generalizing depth with
  | nil => rfl
  | cons p ps ih =>
    rw [List.cons_append, depthThrough, depthThrough, Option.bind_assoc]
    simp only [ih]

/-- More braces around pieces stay open. -/
theorem depthThrough_add {depth d : Nat} (k : Nat) {ps : List (List Char)}
    (h : depthThrough depth ps = some d) : depthThrough (depth + k) ps = some (d + k) := by
  induction ps generalizing depth with
  | nil =>
    obtain rfl : depth = d := Option.some.inj h
    rfl
  | cons p ps ih =>
    obtain ⟨d', hp, hps⟩ := Option.bind_eq_some_iff.1 h
    have hp' : depthAfter (depth + k) p = some (d' + k) := by
      unfold depthAfter at hp ⊢
      split at hp
      · rename_i ho
        rw [if_pos ho, ← Option.some.inj hp]
        congr 1
        omega
      · rename_i ho
        rw [if_neg ho]
        split at hp
        · rename_i hc
          rw [if_pos hc]
          cases depth with
          | zero => exact absurd hp (by simp)
          | succ n =>
            rw [← Option.some.inj hp, show n + 1 + k = n + k + 1 by omega]
        · rename_i hc
          rw [if_neg hc, Option.some.inj hp]
    rw [depthThrough, hp']
    exact ih hps

namespace Passes

variable {text text' rest : List Char}

theorem nil (rest : List Char) : Passes [] rest := ⟨[], rfl, trivial, fun _ ↦ rfl⟩

/-- Texts one after the other. -/
theorem append (h : Passes text (text' ++ rest)) (h' : Passes text' rest) :
    Passes (text ++ text') rest := by
  obtain ⟨ps, rfl, hr, hd⟩ := h
  obtain ⟨ps', rfl, hr', hd'⟩ := h'
  refine ⟨ps ++ ps', List.flatten_append, hr.append hr', fun depth ↦ ?_⟩
  rw [depthThrough_append, hd]
  exact hd' depth

/-- A single piece that is no brace. The pieces are what the scanner for actions takes at once. -/
theorem of_reads (h : Reads text rest) (ho : text ≠ ['\x7b']) (hc : text ≠ ['\x7d']) :
    Passes text rest := by
  refine ⟨[text], by simp, ⟨by simpa using h, trivial⟩, fun depth ↦ ?_⟩
  have hd : depthAfter depth text = some depth := by simp [depthAfter, ho, hc]
  rw [depthThrough, hd]
  rfl

/-- Characters that mean nothing to the scanner. -/
theorem of_forall (h : ∀ c ∈ text, isOpen [c] = false ∧ c ≠ '\x7b' ∧ c ≠ '\x7d')
    (rest : List Char) :
    Passes text rest := by
  induction text with
  | nil => exact .nil rest
  | cons c text ih =>
    rw [List.forall_mem_cons] at h
    have hc : Passes [c] (text ++ rest) :=
      .of_reads (reads_singleton h.1.1 _) (by simp [h.1.2.1]) (by simp [h.1.2.2])
    exact hc.append (ih h.2)

/-- A whole action. Inside it the braces are balanced, and the opening brace and the closing one
make up for each other. -/
theorem of_action {ps : List (List Char)} (h : ReadAll ps ('\x7d' :: rest))
    (hd : depthThrough 0 ps = some 0) : Passes ('\x7b' :: (ps.flatten ++ ['\x7d'])) rest := by
  refine ⟨['\x7b'] :: (ps ++ [['\x7d']]), by simp, ⟨?_, ?_⟩, fun depth ↦ ?_⟩
  · exact reads_singleton (by decide) _
  · exact h.append ⟨by simpa using reads_singleton (by decide) rest, trivial⟩
  · have hin : depthThrough (depth + 1) ps = some (depth + 1) := by
      have ha := depthThrough_add (depth + 1) hd
      rwa [Nat.zero_add] at ha
    rw [depthThrough, show depthAfter depth ['\x7b'] = some (depth + 1) from rfl, Option.bind_some,
      depthThrough_append, hin]
    rfl

/-- What is passed before a closing brace is passed between braces. -/
theorem braced (h : Passes text ('\x7d' :: rest)) : Passes ('\x7b' :: (text ++ ['\x7d'])) rest := by
  obtain ⟨ps, rfl, hr, hd⟩ := h
  exact of_action hr (hd 0)

/-- A block goes on after a text that is passed. -/
theorem blockFrom_append (h : Passes text rest) (depth : Nat) :
    blockFrom depth (text ++ rest) = (blockFrom depth rest).push text := by
  obtain ⟨ps, rfl, hr, hd⟩ := h
  exact hr.blockFrom_append (hd depth)

end Passes

/-! ### Lexemes -/

/-- What means nothing to the scanner for actions: all but quotes, slashes, backslashes and
braces. -/
theorem quiet_of_ne {c : Char} (h : c ∉ ['\'', '"', '/', '\\', '\x7b', '\x7d']) :
    isOpen [c] = false ∧ c ≠ '\x7b' ∧ c ≠ '\x7d' := by
  simp only [List.mem_cons, List.not_mem_nil, or_false, not_or] at h
  simp [isOpen, isQuote, h]

theorem quiet_of_isMute {c : Char} (h : isMute c = true) :
    isOpen [c] = false ∧ c ≠ '\x7b' ∧ c ≠ '\x7d' :=
  quiet_of_ne fun hm ↦ by simp [isMute, hm] at h

/-- The characters of words and numbers are letters, digits and the underscore. -/
theorem quiet_of_isWordChar {c : Char} (h : Lexeme.isWordChar c = true) :
    isOpen [c] = false ∧ c ≠ '\x7b' ∧ c ≠ '\x7d' := by
  refine quiet_of_ne fun hm ↦ ?_
  simp only [List.mem_cons, List.not_mem_nil, or_false] at hm
  rcases hm with rfl | rfl | rfl | rfl | rfl | rfl <;> exact absurd h (by decide)

theorem quiet_of_isSpace {c : Char} (h : Lexeme.isSpace c = true) :
    isOpen [c] = false ∧ c ≠ '\x7b' ∧ c ≠ '\x7d' := by
  refine quiet_of_ne fun hm ↦ ?_
  simp only [List.mem_cons, List.not_mem_nil, or_false] at hm
  rcases hm with rfl | rfl | rfl | rfl | rfl | rfl <;> exact absurd h (by decide)

/-- A string literal of a grammar is a literal of an action. Its items hold a quote or a line end
only behind a backslash. -/
theorem literal?_of_items {cs body rest : List Char}
    (h : Lexeme.items Lexeme.stopsLiteral cs = (body, '\'' :: rest)) (more : List Char) :
    literal? '\'' (body ++ '\'' :: more) = some (body ++ ['\''], more) := by
  fun_induction Lexeme.items Lexeme.stopsLiteral cs generalizing body with
  | case1 => simp at h
  | case2 => simp at h
  | case3 => simp at h
  | case4 d ds hd ih =>
    simp only [Prod.mk.injEq] at h
    obtain ⟨rfl, hr⟩ := h
    have hi := ih (show _ = ((Lexeme.items Lexeme.stopsLiteral ds).1, _) by rw [← hr])
    simp [literal?, hi]
  | case5 c cs hb hs =>
    simp only [Prod.mk.injEq, List.cons.injEq] at h
    obtain ⟨rfl, rfl, -⟩ := h
    rw [List.nil_append, literal?.eq_def]
    rfl
  | case6 c cs hb hs ih =>
    simp only [Prod.mk.injEq] at h
    obtain ⟨rfl, hr⟩ := h
    have hi := ih (show _ = ((Lexeme.items Lexeme.stopsLiteral cs).1, _) by rw [← hr])
    have hc : c ≠ '\'' ∧ endsLine c = false := by simpa [Lexeme.stopsLiteral] using hs
    rw [List.cons_append, literal?.eq_def]
    simp [hb, hc, hi]

/-- A comment is a piece of an action. -/
theorem passes_comment {cs l r : List Char} (h : comment? cs = some (l, r)) {rest : List Char}
    (hl : Lexeme.commentKind cs = .lineComment → ∀ c ∈ rest.head?, endsLine c = true)
    (hb : Lexeme.commentKind cs = .blockComment → ['*', '/'] <:+ l.drop 1) :
    Passes ('/' :: l) rest :=
  .of_reads (.of_comment (Lexeme.comment?_again h hl hb).1) (by simp) (by simp)

/-- The characters of the table of punctuation, but for the brace. -/
theorem quiet_of_ofPunctuation {c : Char} {kind : Kind} (h : Kind.ofPunctuation? c = some kind)
    (hk : kind ≠ .rbrace) : isOpen [c] = false ∧ c ≠ '\x7b' ∧ c ≠ '\x7d' := by
  refine quiet_of_ne fun hm ↦ ?_
  simp only [List.mem_cons, List.not_mem_nil, or_false] at hm
  rcases hm with rfl | rfl | rfl | rfl | rfl | rfl
  · exact absurd h (by simp [Kind.ofPunctuation?])
  · exact absurd h (by simp [Kind.ofPunctuation?])
  · exact absurd h (by simp [Kind.ofPunctuation?])
  · exact absurd h (by simp [Kind.ofPunctuation?])
  · exact absurd h (by simp [Kind.ofPunctuation?])
  · exact hk (Option.some.inj h).symm

theorem quiet_of_ofPair {c d : Char} {kind : Kind} (h : Kind.ofPair? c d = some kind) :
    ∀ e ∈ [c, d], isOpen [e] = false ∧ e ≠ '\x7b' ∧ e ≠ '\x7d' := by
  rw [List.forall_mem_cons, List.forall_mem_singleton]
  unfold Kind.ofPair? at h
  split at h
  · decide
  · decide
  · decide
  · decide
  · exact absurd h (by simp)

/-- The characters that stand for themselves mean nothing to the scanner for actions. -/
theorem passes_punctuation {c : Char} {cs text rest : List Char} {kind : Kind}
    (h : Lexeme.punctuation c cs = (.plain kind text, rest)) (hk : kind ≠ .rbrace)
    (more : List Char) : Passes text more := by
  rcases Lexeme.of_punctuation h with ⟨hp, rfl, -⟩ | ⟨d, ds, hp, rfl, -, -⟩
  · refine .of_forall (fun e he ↦ ?_) more
    rw [List.mem_singleton.1 he]
    exact quiet_of_ofPunctuation hp hk
  · exact .of_forall (quiet_of_ofPair hp) more

/-- **Calm lexemes are passed** by the scanner for actions, with the line end of a line comment and
the terminator of a block comment. -/
theorem passes_plain {c : Char} {cs text rest : List Char} {kind : Kind}
    (h : Lexeme.next c cs = (.plain kind text, rest))
    (hk : (⟨kind, text⟩ : Segment).isCalm = true) {more : List Char}
    (hl : kind = .lineComment → ∀ d ∈ more.head?, endsLine d = true)
    (hb : kind = .blockComment → Lexeme.ClosedComment text) : Passes text more := by
  have hc := Lexeme.holds_charClass c
  rw [Lexeme.next_eq] at h
  cases hcl : Lexeme.charClass c with
  | space =>
    rw [hcl] at h hc
    simp only [Lexeme.nextOf, Prod.mk.injEq, Lexeme.plain.injEq] at h
    obtain ⟨⟨-, rfl⟩, -⟩ := h
    refine .of_forall (List.forall_mem_cons.2 ⟨quiet_of_isSpace hc, fun d hd ↦ ?_⟩) more
    exact quiet_of_isSpace ((List.all_eq_true.1 List.all_takeWhile) d hd)
  | digit =>
    rw [hcl] at h hc
    simp only [Lexeme.nextOf, Prod.mk.injEq, Lexeme.plain.injEq] at h
    obtain ⟨⟨-, rfl⟩, -⟩ := h
    have hw : ∀ {d : Char}, d.isDigit = true → Lexeme.isWordChar d = true := fun hd ↦ by
      simp [Lexeme.isWordChar, Char.isAlphanum, hd]
    refine .of_forall (List.forall_mem_cons.2 ⟨quiet_of_isWordChar (hw hc), fun d hd ↦ ?_⟩) more
    exact quiet_of_isWordChar (hw ((List.all_eq_true.1 List.all_takeWhile) d hd))
  | upper | lower =>
    rw [hcl] at h hc
    simp only [Lexeme.nextOf, Prod.mk.injEq, Lexeme.plain.injEq] at h
    obtain ⟨⟨-, rfl⟩, -⟩ := h
    have hw : Lexeme.isWordChar c = true := by
      simp only [Lexeme.CharClass.Holds] at hc
      have ha : c.isAlpha = true := Bool.or_eq_true_iff.2 (by simp [hc])
      simp [Lexeme.isWordChar, Char.isAlphanum, ha]
    refine .of_forall (List.forall_mem_cons.2 ⟨quiet_of_isWordChar hw, fun d hd ↦ ?_⟩) more
    exact quiet_of_isWordChar ((List.all_eq_true.1 List.all_takeWhile) d hd)
  | quote =>
    rw [hcl] at h hc
    obtain rfl : c = '\'' := hc
    -- the closing quote is the first one for both scanners
    obtain ⟨body, rfl, rfl, hi⟩ := Lexeme.of_delimited h
    refine .of_reads ⟨'\'', body ++ ['\''], rfl, ?_⟩ (by simp) (by simp)
    rw [piece, if_neg (by decide), if_pos (by decide), List.append_assoc, List.singleton_append,
      literal?_of_items hi more]
    rfl
  | bracket =>
    rw [hcl] at h
    -- a set may hold quotes and braces, which calm segments do not
    obtain ⟨-, rfl, -, -⟩ := Lexeme.of_delimited h
    exact .of_forall (fun d hd ↦ quiet_of_isMute (List.all_eq_true.1 hk d hd)) more
  | brace => rw [hcl] at h; simp [Lexeme.nextOf] at h
  | slash =>
    rw [hcl] at h hc
    obtain rfl : c = '/' := hc
    simp only [Lexeme.nextOf] at h
    split at h
    · rename_i l r hcom
      simp only [Prod.mk.injEq, Lexeme.plain.injEq] at h
      obtain ⟨⟨rfl, rfl⟩, -⟩ := h
      exact passes_comment hcom hl hb
    · simp at h
  | other =>
    rw [hcl] at h
    -- the closing brace is the one character here that is not calm
    exact passes_punctuation h (fun hr ↦ absurd hk (by simp [hr, Segment.isCalm])) more

end Action

end GrammarLayout
