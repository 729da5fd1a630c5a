import GrammarLayout.Proofs.Action.Bytes
import GrammarLayout.Proofs.Action.Passing
import GrammarLayout.Proofs.Token.Tiling

/-!
# The two scanners of actions agree

A block is found by counting. Take the pieces of everything after the opening brace, and number the
pieces that are a brace by themselves: the block ends at the first closing brace by which there is
one more of those than of opening ones (`closing?`). The scanner that finds the end knows nothing of
pieces, and the one that splits a text knows nothing of ends; that they agree is
`block_eq_of_closing`.

A block that is cut out is scanned again, by itself. Nothing in it may have reached for the text
behind it: quotes look for their partner, slashes and line comments at what comes next. So a piece
that is read before a closing brace is read when that brace is the end of the text
(`Reads.upToBrace`), and when it is taken away (`Reads.cut`).
-/

namespace GrammarLayout

/-- Spans that cover bytes without gap or overlap, and none of which is empty. -/
def SpansTile : (start stop : Nat) → List (Nat × Nat) → Prop
  | start, stop, [] => start = stop
  | start, stop, span :: spans => span.1 = start ∧ start < span.2 ∧ SpansTile span.2 stop spans

/-- Texts that follow each other tile the whole, from one boundary between characters to another. -/
theorem spansTile_byteSpans (pre : List Char) {ps : List (List Char)} (hp : [] ∉ ps) :
    SpansTile (byteLength pre) (byteLength (pre ++ ps.flatten)) (byteSpans (byteLength pre) ps) ∧
      ∀ span ∈ byteSpans (byteLength pre) ps,
        String.Pos.Raw.IsValid (String.ofList (pre ++ ps.flatten)) ⟨span.1⟩ ∧
          String.Pos.Raw.IsValid (String.ofList (pre ++ ps.flatten)) ⟨span.2⟩ := by
  induction ps generalizing pre with
  | nil => simp [byteSpans, SpansTile]
  | cons p ps ih =>
    rw [List.mem_cons, not_or] at hp
    have hpos := byteLength_pos (Ne.symm hp.1)
    obtain ⟨htile, hvalid⟩ := ih (pre ++ p) hp.2
    rw [byteLength_append, List.append_assoc, ← List.flatten_cons] at htile hvalid
    refine ⟨⟨rfl, Nat.lt_add_of_pos_right hpos, htile⟩, List.forall_mem_cons.2 ⟨⟨?_, ?_⟩, hvalid⟩⟩
    · exact isValid_byteLength pre _
    · have hv := isValid_byteLength (pre ++ p) ps.flatten
      rwa [List.append_assoc, ← List.flatten_cons, byteLength_append] at hv

namespace Action

/-! ### Counting braces -/

/-- Whether a piece closes a block: it is a closing brace, and with it there is one more of those
than of opening braces. -/
def closesAt (ps : List (List Char)) (i : Nat) : Bool :=
  ps[i]? == some ['\x7d'] &&
    (ps.take (i + 1)).count ['\x7d'] == (ps.take (i + 1)).count ['\x7b'] + 1

/-- The first piece that closes a block. -/
def closing? (ps : List (List Char)) : Option Nat := (List.range ps.length).find? (closesAt ps)

/-- Braces open after pieces are those that were opened and not closed. -/
theorem count_of_depthThrough {depth d : Nat} {ps : List (List Char)}
    (h : depthThrough depth ps = some d) :
    d + ps.count ['\x7d'] = depth + ps.count ['\x7b'] := by
  induction ps generalizing depth with
  | nil =>
    obtain rfl : depth = d := Option.some.inj h
    rfl
  | cons p ps ih =>
    obtain ⟨d', hp, hps⟩ := Option.bind_eq_some_iff.1 h
    have hd := ih hps
    unfold depthAfter at hp
    split at hp
    · rename_i ho
      subst ho
      obtain rfl := Option.some.inj hp
      rw [List.count_cons_self, List.count_cons_of_ne (by decide)]
      omega
    · rename_i ho
      split at hp
      · rename_i hc
        subst hc
        cases depth with
        | zero => exact absurd hp (by simp)
        | succ n =>
          obtain rfl := Option.some.inj hp
          rw [List.count_cons_self, List.count_cons_of_ne (by decide)]
          omega
      · rename_i hc
        obtain rfl := Option.some.inj hp
        rwa [List.count_cons_of_ne hc, List.count_cons_of_ne ho]

/-- What is open after pieces is open after the first of them. -/
theorem depthThrough_take {depth d : Nat} {ps : List (List Char)}
    (h : depthThrough depth ps = some d) (n : Nat) :
    ∃ d', depthThrough depth (ps.take n) = some d' := by
  rw [← List.take_append_drop n ps, depthThrough_append] at h
  obtain ⟨d', hd', -⟩ := Option.bind_eq_some_iff.1 h
  exact ⟨d', hd'⟩

/-- Pieces that leave the block open do not close it. -/
theorem closesAt_of_depthThrough {d : Nat} {ps : List (List Char)}
    (h : depthThrough 0 ps = some d) (i : Nat) (more : List (List Char)) (hi : i < ps.length) :
    closesAt (ps ++ more) i = false := by
  obtain ⟨d', hd'⟩ := depthThrough_take h (i + 1)
  have hcount := count_of_depthThrough hd'
  rw [closesAt, List.take_append_of_le_length (show i + 1 ≤ ps.length from hi), Bool.and_eq_false_iff]
  right
  rw [beq_eq_false_iff_ne]
  omega

/-- A closing brace after pieces that leave no brace open is the first piece that closes the
block. -/
theorem closing?_append {ps more : List (List Char)} (h : depthThrough 0 ps = some 0) :
    closing? (ps ++ ['\x7d'] :: more) = some ps.length := by
  have hcount := count_of_depthThrough h
  have htake : (ps ++ ['\x7d'] :: more).take (ps.length + 1) = ps ++ [['\x7d']] := by
    rw [List.append_cons, List.take_left' (by simp)]
  have hcloses : closesAt (ps ++ ['\x7d'] :: more) ps.length = true := by
    rw [closesAt, htake, List.count_append, List.count_append]
    simp
    omega
  rw [closing?, List.find?_range_eq_some]
  exact ⟨hcloses, by simp, fun j hj ↦ by simp [closesAt_of_depthThrough h j _ hj]⟩

/-- What closes a block is a closing brace. -/
theorem take_succ_of_closing {ps : List (List Char)} {i : Nat} (h : closing? ps = some i) :
    ps.take (i + 1) = ps.take i ++ [['\x7d']] := by
  have hc : closesAt ps i = true := List.find?_some h
  have hbrace := eq_of_beq (Bool.and_eq_true_iff.1 hc).1
  rw [List.take_add_one, hbrace, Option.toList_some]

/-- No piece closes the block if all of them leave it open. -/
theorem closing?_eq_none {d : Nat} {ps : List (List Char)} (h : depthThrough 0 ps = some d) :
    closing? ps = none := by
  rw [closing?, List.find?_range_eq_none]
  intro i hi
  have hc := closesAt_of_depthThrough h i [] hi
  rw [List.append_nil] at hc
  rw [hc]
  rfl

/-! ### The end of a block -/

/-- The pieces of a text whose block is closed: those of the body, the brace, and those of what
follows. -/
theorem pieces_of_closed {cs body rest : List Char} (h : block cs = ⟨body, true, rest⟩) :
    pieces cs = pieces body ++ ['\x7d'] :: pieces rest := by
  obtain ⟨rfl, hread, -⟩ := of_closed h
  have hp := hread.pieces_append
  rw [flatten_pieces] at hp
  have hbrace : Reads ['\x7d'] rest := reads_singleton (by decide) rest
  rw [hp]
  exact congrArg _ hbrace.pieces_append

/-- What closes the block of a text, by its pieces. -/
theorem closing?_of_closed {cs body rest : List Char} (h : block cs = ⟨body, true, rest⟩) :
    closing? (pieces cs) = some (pieces body).length := by
  obtain ⟨-, -, hdepth⟩ := of_closed h
  rw [pieces_of_closed h, closing?_append hdepth]

/-- **Blocks end where their pieces say**: at the first closing brace by which there is one more of
those than of opening ones, or not at all. -/
theorem block_eq_of_closing (cs : List Char) :
    block cs =
      match closing? (pieces cs) with
      | some i => ⟨((pieces cs).take i).flatten, true, ((pieces cs).drop (i + 1)).flatten⟩
      | none => ⟨cs, false, []⟩ := by
  cases hc : (block cs).closed with
  | true =>
    have hb : block cs = ⟨(block cs).body, true, (block cs).rest⟩ := by rw [← hc]
    have hdrop : (pieces cs).drop ((pieces (block cs).body).length + 1) =
        pieces (block cs).rest := by
      rw [pieces_of_closed hb, List.append_cons, List.drop_left' (by simp)]
    have htake : (pieces cs).take (pieces (block cs).body).length = pieces (block cs).body := by
      rw [pieces_of_closed hb, List.take_left]
    rw [closing?_of_closed hb]
    dsimp only
    rw [hdrop, htake, flatten_pieces, flatten_pieces]
    exact hb
  | false =>
    obtain ⟨hbody, d, hdepth⟩ := of_not_closed hc
    have happ := block_append cs
    have hrest : (block cs).rest = [] := by
      rw [Block.text, Block.brace, hc, show (block cs).body = cs from hbody] at happ
      simpa using happ
    rw [closing?_eq_none hdepth]
    calc block cs = ⟨(block cs).body, (block cs).closed, (block cs).rest⟩ := rfl
      _ = ⟨cs, false, []⟩ := by rw [hc, hrest, show (block cs).body = cs from hbody]

/-! ### A block that is cut out -/

/-- A literal holds its closing quote at least. -/
theorem literal?_ne_nil {q : Char} {cs r : List Char} : literal? q cs ≠ some ([], r) := by
  intro h
  rw [literal?.eq_def] at h
  split at h
  · exact absurd h (by simp)
  split at h
  · split at h
    · exact absurd h (by simp)
    · simp at h
  split at h
  · exact absurd h (by simp)
  split at h <;> simp at h

/-- A piece that is read before a closing brace is read if that brace ends the text. -/
theorem Reads.upToBrace {p cs more : List Char} (h : Reads p (cs ++ '\x7d' :: more)) :
    Reads p (cs ++ ['\x7d']) := by
  cases ho : isOpen p with
  | false => exact h.again ho _
  | true =>
    by_cases hq : ∃ c, isQuote c = true ∧ p = [c]
    · -- a quote by itself has no partner in the whole text, so it has none in a part of it
      obtain ⟨c, hquote, rfl⟩ := hq
      obtain ⟨c', l, he, hp⟩ := h
      obtain ⟨rfl, rfl⟩ := List.cons.inj he
      rcases quote_cases hquote hp with hl | ⟨-, hl⟩
      · exact absurd hl literal?_ne_nil
      · rw [List.append_cons] at hl
        exact of_quote hquote (literal?_cut hl)
    · refine h.again_of_head ho (fun c hc hp ↦ hq ⟨c, hc, hp⟩)
        (d := ((cs ++ ['\x7d']).head (by simp))) ?_ (List.head?_eq_some_head _)
      cases cs <;> rfl

/-- Pieces that are read before a closing brace are read if that brace ends the text. -/
theorem ReadAll.upToBrace {ps : List (List Char)} {more : List Char}
    (h : ReadAll ps ('\x7d' :: more)) : ReadAll ps ['\x7d'] := by
  induction ps with
  | nil => trivial
  | cons p ps ih => exact ⟨h.1.upToBrace, ih h.2⟩

/-- **A closed block is found again** where its text stands by itself. -/
theorem block_text_of_closed {cs body rest : List Char} (h : block cs = ⟨body, true, rest⟩) :
    block (body ++ ['\x7d']) = ⟨body, true, []⟩ := by
  obtain ⟨-, hread, hdepth⟩ := of_closed h
  have hb := hread.upToBrace.blockFrom_append hdepth
  rw [flatten_pieces] at hb
  rw [block, hb, blockFrom_closing]
  simp [Block.push]

/-! ### Agreement -/

/-- The first bytes of a text. -/
def upTo (source : String) (n : Nat) : String := String.Pos.Raw.extract source 0 ⟨n⟩

theorem upTo_byteLength {source : String} {l r : List Char} (h : source.toList = l ++ r) :
    upTo source (byteLength l) = String.ofList l := by
  have hx := extract_byteLength [] l r
  rw [List.nil_append, ← h, String.ofList_toList, byteLength_nil, Nat.zero_add] at hx
  exact hx

theorem toList_toUTF8 (source : String) : source.toUTF8.data.toList = utf8Bytes source.toList := by
  rw [← String.ofList_toList (s := source)]
  exact List.toList_data_toByteArray.trans (by rw [String.toList_ofList]; rfl)

theorem utf8ByteSize_eq (source : String) : source.utf8ByteSize = byteLength source.toList := by
  rw [← utf8ByteSize_ofList, String.ofList_toList]

/-- What the two scanners make of the text after an opening brace. -/
structure Agreement (source : String) : Prop where
  /-- The pieces make up the text. -/
  flatten_eq : (pieces source.toList).flatten = source.toList
  /-- No piece is empty. -/
  nil_not_mem : [] ∉ pieces source.toList
  /-- The pieces cover the bytes of the text without gap or overlap. -/
  tile : SpansTile 0 source.utf8ByteSize (byteSpans 0 (pieces source.toList))
  /-- Every piece stands between two boundaries of characters. -/
  valid : ∀ span ∈ byteSpans 0 (pieces source.toList),
    String.Pos.Raw.IsValid source ⟨span.1⟩ ∧ String.Pos.Raw.IsValid source ⟨span.2⟩
  /-- The block ends with the first piece that closes it; without one it takes the whole text. -/
  measure_eq : (block source.toList).measure =
    match closing? (pieces source.toList) with
    | some i => (byteLength ((pieces source.toList).take (i + 1)).flatten, true)
    | none => (source.utf8ByteSize, false)
  /-- The end is found byte by byte as well. -/
  blockLength_eq : blockLength 0 source.toUTF8.data.toList = (block source.toList).measure
  /-- Up to the brace that closes the block, the text has the pieces it has before that brace. -/
  pieces_upTo : ∀ n, (block source.toList).measure = (n, true) →
    ∃ i, closing? (pieces source.toList) = some i ∧
      pieces (upTo source (n - 1)).toList = (pieces source.toList).take i
  /-- With that brace and nothing behind it, the block ends there too. -/
  measure_upTo : ∀ n, (block source.toList).measure = (n, true) →
    (block (upTo source n).toList).measure = (n, true)

theorem nil_not_mem_pieces (cs : List Char) : [] ∉ pieces cs := by
  intro hmem
  obtain ⟨rest, hr⟩ := (readAll_pieces cs).exists_reads hmem
  exact hr.ne_nil rfl

/-- A closed block by its length: the text up to its brace, and with it. -/
theorem exists_of_measure {source : String} {n : Nat}
    (h : (block source.toList).measure = (n, true)) :
    ∃ body rest, block source.toList = ⟨body, true, rest⟩ ∧ (upTo source (n - 1)).toList = body ∧
      (upTo source n).toList = body ++ ['\x7d'] ∧ n = byteLength (body ++ ['\x7d']) := by
  obtain ⟨hn, hc⟩ := Prod.mk.inj h
  have hb : block source.toList = ⟨(block source.toList).body, true, (block source.toList).rest⟩ := by
    rw [← hc]
  obtain ⟨hsrc, -, -⟩ := of_closed hb
  rw [Block.text, Block.brace, hc, if_pos rfl] at hn
  have hbrace : byteLength ['\x7d'] = 1 := by decide
  have hn' : byteLength (block source.toList).body = n - 1 := by
    rw [← hn, byteLength_append, hbrace, Nat.add_sub_cancel]
  refine ⟨_, _, hb, ?_, ?_, hn.symm⟩
  · rw [← hn', upTo_byteLength hsrc, String.toList_ofList]
  · rw [← hn, upTo_byteLength (hsrc.trans (List.append_cons ..)), String.toList_ofList]

/-- **The two scanners agree** on every text after an opening brace: the pieces tile it, the block
ends with the first piece that makes the closing braces outnumber the opening ones, found by
characters or by bytes, and neither the pieces nor the end depend on what is behind it. -/
theorem scanners_agree (source : String) : Agreement source := by
  have hflatten := flatten_pieces source.toList
  obtain ⟨htile, hvalid⟩ := spansTile_byteSpans [] (nil_not_mem_pieces source.toList)
  rw [List.nil_append, hflatten] at htile hvalid
  rw [String.ofList_toList] at hvalid
  refine ⟨hflatten, nil_not_mem_pieces _, ?_, hvalid, ?_, ?_, fun n hn ↦ ?_, fun n hn ↦ ?_⟩
  · rwa [utf8ByteSize_eq]
  · rw [block_eq_of_closing]
    cases hcl : closing? (pieces source.toList) with
    | some i =>
      dsimp only
      rw [take_succ_of_closing hcl, List.flatten_append]
      rfl
    | none =>
      dsimp only
      rw [utf8ByteSize_eq, Block.measure, Block.text]
      simp [Block.brace]
  · rw [toList_toUTF8]
    exact blockLength_utf8Bytes 0 source.toList
  · obtain ⟨body, rest, hb, hbody, -, -⟩ := exists_of_measure hn
    refine ⟨_, closing?_of_closed hb, ?_⟩
    rw [hbody, pieces_of_closed hb, List.take_left]
  · obtain ⟨body, rest, hb, -, htext, hlen⟩ := exists_of_measure hn
    rw [htext, block_text_of_closed hb, Block.measure, Block.text, hlen]
    rfl

/-- A backslash before a character of two bytes, a brace in a literal, a quote without a partner,
and one more of either behind the end. -/
example : (block "\\é\x7b'\x7d'\x7d it's\n\x7d x'\x7d".toList).measure = (15, true) ∧
    closing? (pieces "\\é\x7b'\x7d'\x7d it's\n\x7d x'\x7d".toList) = some 10 := by
  decide +kernel

end Action

end GrammarLayout
