import GrammarLayout.Proofs.Grammar.Recovery

/-!
# The header decides

Whether a source can be read at all is decided by its header (`parse_tokenize_header`), since
nothing that comes after one stops the reader. Where a header is broken, the place that is reported
is the first token with which no header goes on (`BreaksAt`), although alternatives are tried, and
fail, at earlier tokens as well.

A header is a short list of kinds, so what it is can be said by itself (`IsHeader`), apart from the
productions. Where one breaks can then be said without them, too: at the longest start of the tokens
that is still the start of some header (`GoesOn`).

The proof follows the productions from the back, with `Finishes`, which says of a pattern and of the
kinds read so far that the pattern either reads the rest of a header or fails furthest where the
header breaks. The semicolon and the name finish a header (`finishes_name`), a part that is read in
front of them hands the statement on (`Finishes.seq`), and the sort of grammar is tried with and
without (`finishes_of_sort`, `finishes_of_no_sort`). Documentation in front is read by a repetition,
whose last round fails, but not further than anything after it (`Failure.further_suffix`).

That what comes after a header never fails is shown in `GrammarLayout.Proofs.Grammar.Recovery`: what
cannot be read as a rule is read as a region, up to the end of the tokens.
-/

namespace GrammarLayout

/-! ### Headers -/

/-- The kinds of the tokens of a header. Any number of doc comments may stand in front; the sort of
grammar may be missing. -/
inductive IsHeader : List Kind → Prop
  /-- Documentation in front. -/
  | doc {ks : List Kind} (h : IsHeader ks) : IsHeader (.docComment :: ks)
  /-- A header that does not tell the sort of grammar. -/
  | plain {name : Kind} (hn : name ∈ [Kind.ruleRef, .tokenRef]) :
      IsHeader [.kwGrammar, name, .semi]
  /-- A header that tells the sort of grammar. -/
  | sorted {sort name : Kind} (hs : sort ∈ [Kind.kwLexer, .kwParser])
      (hn : name ∈ [Kind.ruleRef, .tokenRef]) : IsHeader [sort, .kwGrammar, name, .semi]

/-- Some header starts with the kinds `ks` and goes on with the kind `k`. So `ks` is the start of a
header, and not a whole one. -/
def GoesOn (ks : List Kind) (k : Kind) : Prop := ∃ more, IsHeader (ks ++ k :: more)

/-- Tokens that start with a header, whatever follows it. -/
def StartsWithHeader (us : List Token) : Prop :=
  ∃ hs rest, us = hs ++ rest ∧ IsHeader (hs.map Token.kind)

/-- Tokens whose header breaks: it goes on up to the rest, but not with the first token of that. -/
def BreaksAt (us rest : List Token) : Prop :=
  ∃ A t B, us = A ++ t :: B ∧ rest = t :: B ∧ (∃ k, GoesOn (A.map Token.kind) k) ∧
    ¬ GoesOn (A.map Token.kind) t.kind

/-- Documentation in front does not matter to whether there is a header. -/
theorem isHeader_doc_iff {ks : List Kind} : IsHeader (.docComment :: ks) ↔ IsHeader ks := by
  refine ⟨fun h ↦ ?_, .doc⟩
  cases h with
  | doc h => exact h
  | sorted hs => exact absurd hs (by decide)

/-- Nor does it to how a header goes on. -/
theorem goesOn_doc_iff {ks : List Kind} {k : Kind} :
    GoesOn (.docComment :: ks) k ↔ GoesOn ks k := by
  simp only [GoesOn, List.cons_append, isHeader_doc_iff]

/-- No header is the start of another one, so it is clear where a header ends. -/
theorem IsHeader.eq_nil_of_append {ks more : List Kind} (h : IsHeader ks)
    (h' : IsHeader (ks ++ more)) : more = [] := by
  induction h with
  | doc _ ih => exact ih (isHeader_doc_iff.1 h')
  | plain _ =>
    cases h' with
    | plain => rfl
    | sorted hs => exact absurd hs (by decide)
  | sorted hs _ =>
    cases h' with
    | doc => exact absurd hs (by decide)
    | sorted => rfl

/-- Tokens whose header breaks do not start with a header. A header that is there would have to end
before the place where it breaks, or to go on through it. -/
theorem not_startsWithHeader_of_breaksAt {us rest : List Token} (h : BreaksAt us rest) :
    ¬ StartsWithHeader us := by
  rintro ⟨hs, rest', hus, hh⟩
  obtain ⟨A, t, B, rfl, -, ⟨k, more, hm⟩, hn⟩ := h
  rcases List.append_eq_append_iff.1 hus with ⟨as, rfl, hB⟩ | ⟨as, rfl, hB⟩
  · cases as with
    | nil =>
      -- the header ends just where it would have to go on
      rw [List.append_nil] at hh
      exact absurd (hh.eq_nil_of_append hm) (by simp)
    | cons a as =>
      obtain ⟨rfl, -⟩ := List.cons.inj hB
      rw [List.map_append, List.map_cons] at hh
      exact hn ⟨_, hh⟩
  · rw [List.map_append, List.append_assoc] at hm
    exact absurd (hh.eq_nil_of_append hm) (by simp)

theorem BreaksAt.doc {us rest : List Token} {t : Token} (ht : t.kind = .docComment)
    (h : BreaksAt us rest) : BreaksAt (t :: us) rest := by
  obtain ⟨A, u, B, rfl, hr, ⟨k, hk⟩, hn⟩ := h
  refine ⟨t :: A, u, B, rfl, hr, ⟨k, ?_⟩, ?_⟩
  · rw [List.map_cons, ht]
    exact goesOn_doc_iff.2 hk
  · rw [List.map_cons, ht, goesOn_doc_iff]
    exact hn

theorem StartsWithHeader.doc {us : List Token} {t : Token} (ht : t.kind = .docComment)
    (h : StartsWithHeader us) : StartsWithHeader (t :: us) := by
  obtain ⟨hs, rest, rfl, hh⟩ := h
  refine ⟨t :: hs, rest, rfl, ?_⟩
  rw [List.map_cons, ht]
  exact .doc hh

/-! ### Reading the header -/

namespace Failure

@[simp] theorem none_further (b : Failure) : further none b = b := rfl

/-- A failure with fewer tokens left is further. -/
theorem further_some {a b : List Token} (h : b.length ≤ a.length)
    (hab : a.length = b.length → a = b) :
    further (some a) (some b) = some b := by
  rw [further]
  split
  · rfl
  · rw [hab (by omega)]

/-- The end of a list is further than the list. -/
theorem further_suffix (as b : List Token) : further (some (as ++ b)) (some b) = some b := by
  refine further_some (by simp) fun h ↦ ?_
  rw [List.length_append, Nat.add_eq_right, List.length_eq_zero_iff] at h
  rw [h, List.nil_append]

end Failure

namespace Pattern

variable {limit : Nat} {sub : Nest → Reader} {far : Nest → List Token → Failure}

theorem furthest_token (kinds : List Kind) (us : List Token) :
    furthest limit sub far (token kinds) us =
      if (read limit sub (token kinds) us).isSome then none else some us := rfl

/-- The furthest failure of a sequence: that of its first part and, if this could be read, that of
the second part behind it. The equation is stated here once, because opening `furthest` makes Lean
prepare it for every form of a pattern. -/
theorem furthest_seq (p q : Pattern) (us : List Token) :
    furthest limit sub far (seq p q) us =
      (p.read limit sub us).elim (p.furthest limit sub far us) fun r ↦
        Failure.further (p.furthest limit sub far us) (q.furthest limit sub far r.2) := by
  cases h : p.read limit sub us <;> simp only [furthest, h, Option.elim_none, Option.elim_some]

/-- The furthest failure of a choice: that of the first side and, if this could not be read, that of
the second side at the same place. -/
theorem furthest_alt (p q : Pattern) (us : List Token) :
    furthest limit sub far (alt p q) us =
      (p.read limit sub us).elim
        (Failure.further (p.furthest limit sub far us) (q.furthest limit sub far us)) fun _ ↦
          p.furthest limit sub far us := by
  cases h : p.read limit sub us <;> simp only [furthest, h, Option.elim_none, Option.elim_some]

theorem furthest_token_of_mem {kinds : List Kind} {t : Token} (h : t.kind ∈ kinds)
    (us : List Token) : furthest limit sub far (token kinds) (t :: us) = none := by
  rw [furthest_token, read_token_of_mem h]
  rfl

theorem furthest_token_of_not_mem {kinds : List Kind} {t : Token} (h : t.kind ∉ kinds)
    (us : List Token) : furthest limit sub far (token kinds) (t :: us) = some (t :: us) := by
  rw [furthest_token, read_token_of_not_mem h]
  rfl

theorem furthest_seq_of_some {p : Pattern} {us rest : List Token} {ts : List Tree}
    (h : p.read limit sub us = some (ts, rest)) (q : Pattern) :
    furthest limit sub far (seq p q) us =
      Failure.further (p.furthest limit sub far us) (q.furthest limit sub far rest) := by
  rw [furthest_seq, h, Option.elim_some]

theorem furthest_seq_of_none {p : Pattern} {us : List Token} (h : p.read limit sub us = none)
    (q : Pattern) : furthest limit sub far (seq p q) us = p.furthest limit sub far us := by
  rw [furthest_seq, h, Option.elim_none]

theorem furthest_alt_of_some {p : Pattern} {us rest : List Token} {ts : List Tree}
    (h : p.read limit sub us = some (ts, rest)) (q : Pattern) :
    furthest limit sub far (alt p q) us = p.furthest limit sub far us := by
  rw [furthest_alt, h, Option.elim_some]

theorem furthest_alt_of_none {p : Pattern} {us : List Token} (h : p.read limit sub us = none)
    (q : Pattern) : furthest limit sub far (alt p q) us =
      Failure.further (p.furthest limit sub far us) (q.furthest limit sub far us) := by
  rw [furthest_alt, h, Option.elim_none]

theorem furthest_node (kind : NodeKind) (p : Pattern) :
    furthest limit sub far (node kind p) = p.furthest limit sub far := rfl

/-- A repetition of one kind of token fails where another kind comes. -/
theorem furthestMany_tok {kind : Kind} {cs : List Token} {t : Token} (rest : List Token)
    (hc : ∀ c ∈ cs, c.kind = kind) (ht : t.kind ≠ kind) {n : Nat} (hn : cs.length < n) :
    furthestMany (read limit sub (tok kind)) (furthest limit sub far (tok kind)) n
      (cs ++ t :: rest) = some (t :: rest) := by
  have ht' : t.kind ∉ [kind] := by simpa using ht
  induction cs generalizing n with
  | nil =>
    obtain ⟨n, rfl⟩ := Nat.exists_eq_succ_of_ne_zero (Nat.ne_of_gt hn)
    rw [List.nil_append, furthestMany, read_token_of_not_mem ht']
    exact furthest_token_of_not_mem ht' rest
  | cons c cs ih =>
    obtain ⟨n, rfl⟩ := Nat.exists_eq_succ_of_ne_zero (Nat.ne_of_gt (Nat.zero_lt_of_lt hn))
    rw [List.forall_mem_cons] at hc
    have hk : c.kind ∈ [kind] := by simp [hc.1]
    rw [List.cons_append, furthestMany, read_token_of_mem hk, furthest_token_of_mem hk]
    exact ih hc.2 (Nat.lt_of_succ_lt_succ hn)

/-- A pattern that finishes a header of which the kinds `K` were read: it reads the rest of the
header, or fails, and fails furthest where the header breaks. -/
def Finishes (limit : Nat) (sub : Nest → Reader) (far : Nest → List Token → Failure) (K : List Kind)
    (p : Pattern) (us : List Token) : Prop :=
  (∃ hs rest ts, us = hs ++ rest ∧ IsHeader (K ++ hs.map Token.kind) ∧
    p.read limit sub us = some (ts, rest)) ∨
  (∃ A t B, us = A ++ t :: B ∧ (∃ k, GoesOn (K ++ A.map Token.kind) k) ∧
    ¬ GoesOn (K ++ A.map Token.kind) t.kind ∧ p.read limit sub us = none ∧
    p.furthest limit sub far us = some (t :: B))

theorem Finishes.node {K : List Kind} {p : Pattern} {us : List Token}
    (h : Finishes limit sub far K p us) (kind : NodeKind) :
    Finishes limit sub far K (node kind p) us := by
  rcases h with ⟨hs, rest, ts, hu, hh, hr⟩ | ⟨A, t, B, hu, hA, ht, hr, hf⟩
  · exact .inl ⟨hs, rest, _, hu, hh, by rw [read_node, hr]; rfl⟩
  · exact .inr ⟨A, t, B, hu, hA, ht, by rw [read_node, hr]; rfl, hf⟩

/-- A pattern reads a part of the header, with no failure or one in front of that part, and another
pattern finishes the header. -/
theorem Finishes.seq {K : List Kind} {p q : Pattern} {us pre rest : List Token} {ts : List Tree}
    (hu : us = pre ++ rest) (hp : p.read limit sub us = some (ts, rest))
    (hf : p.furthest limit sub far us = none ∨
      ∃ as, p.furthest limit sub far us = some (as ++ rest))
    (h : Finishes limit sub far (K ++ pre.map Token.kind) q rest) :
    Finishes limit sub far K (seq p q) us := by
  rcases h with ⟨hs, rest', ts', hr, hh, hq⟩ | ⟨A, t, B, hr, hA, ht, hq, hqf⟩
  · refine .inl ⟨pre ++ hs, rest', ts ++ ts', by rw [hu, hr, List.append_assoc], ?_, ?_⟩
    · rwa [List.map_append, ← List.append_assoc]
    · rw [read_seq_of_some hp, hq]
      rfl
  · refine .inr ⟨pre ++ A, t, B, by rw [hu, hr, List.append_assoc], ?_, ?_, ?_, ?_⟩
    · rwa [List.map_append, ← List.append_assoc]
    · rwa [List.map_append, ← List.append_assoc]
    · rw [read_seq_of_some hp, hq]
      rfl
    -- the failure of the first part lies in front of that of the second one
    · rw [furthest_seq_of_some hp, hqf]
      rcases hf with hf | ⟨as, hf⟩
      · rw [hf, Failure.none_further]
      · rw [hf, hr, ← List.append_assoc, Failure.further_suffix]

/-- The name of a grammar and its semicolon finish a header, if `K` is what stands in front of a
name. The three cases that fail are those of a header that breaks: at the name, at the semicolon, or
nowhere. -/
theorem finishes_name {K : List Kind}
    (hK : ∀ ks, IsHeader (K ++ ks) ↔ ∃ name ∈ [Kind.ruleRef, .tokenRef], ks = [name, .semi])
    {us : List Token} (h : Terminated us) :
    Finishes limit sub far K (seq Production.identifier (tok .semi)) us := by
  have hgo : GoesOn K .ruleRef := ⟨[.semi], (hK _).2 ⟨_, by decide, rfl⟩⟩
  cases us with
  | nil => exact absurd rfl h.ne_nil
  | cons n us =>
    by_cases hn : n.kind ∈ [Kind.ruleRef, .tokenRef]
    · have hfar : Production.identifier.furthest limit sub far (n :: us) = none := by
        rw [Production.identifier, furthest_node, furthest_token_of_mem hn]
      refine Finishes.seq (show n :: us = [n] ++ us from rfl) (read_identifier hn us) (.inl hfar) ?_
      have hus := h.tail (by rintro he; rw [he] at hn; exact absurd hn (by decide))
      cases us with
      | nil => exact absurd rfl hus.ne_nil
      | cons s us =>
        by_cases hs : s.kind = .semi
        · refine .inl ⟨[s], us, _, rfl, ?_, read_token_of_mem (by simp [hs]) us⟩
          rw [List.append_assoc, hK]
          exact ⟨n.kind, hn, by simp [hs]⟩
        · refine .inr
            ⟨[], s, us, rfl, ⟨.semi, [], ?_⟩, ?_, read_token_of_not_mem (by simpa using hs) us,
            furthest_token_of_not_mem (by simpa using hs) us⟩
          · rw [List.map_nil, List.append_nil, List.append_assoc, hK]
            exact ⟨n.kind, hn, rfl⟩
          · rintro ⟨more, hm⟩
            rw [List.map_nil, List.append_nil, List.append_assoc, hK] at hm
            obtain ⟨name, -, he⟩ := hm
            exact hs (List.cons.inj (List.cons.inj he).2).1
    · refine .inr ⟨[], n, us, rfl, ⟨.ruleRef, by simpa using hgo⟩, ?_,
        read_seq_of_none (read_identifier_of_not_mem hn us) _, ?_⟩
      · rintro ⟨more, hm⟩
        rw [List.map_nil, List.append_nil, hK] at hm
        obtain ⟨name, hname, he⟩ := hm
        rw [← (List.cons.inj he).1] at hname
        exact hn hname
      · rw [furthest_seq_of_none (read_identifier_of_not_mem hn us), Production.identifier,
          furthest_node, furthest_token_of_not_mem hn]

/-- After the keyword of a grammar without a sort comes a name and a semicolon. -/
theorem isHeader_plain_iff (ks : List Kind) :
    IsHeader ([.kwGrammar] ++ ks) ↔ ∃ name ∈ [Kind.ruleRef, .tokenRef], ks = [name, .semi] := by
  refine ⟨fun h ↦ ?_, fun ⟨name, hn, he⟩ ↦ he ▸ .plain hn⟩
  cases h with
  | plain hn => exact ⟨_, hn, rfl⟩
  | sorted hs => exact absurd hs (by decide)

/-- After the sort and the keyword comes a name and a semicolon. -/
theorem isHeader_sorted_iff {sort : Kind} (hs : sort ∈ [Kind.kwLexer, .kwParser]) (ks : List Kind) :
    IsHeader ([sort, .kwGrammar] ++ ks) ↔
      ∃ name ∈ [Kind.ruleRef, .tokenRef], ks = [name, .semi] := by
  refine ⟨fun h ↦ ?_, fun ⟨name, hn, he⟩ ↦ he ▸ .sorted hs hn⟩
  cases h with
  | doc | plain => exact absurd hs (by decide)
  | sorted _ hn => exact ⟨_, hn, rfl⟩

/-- A header starts with documentation, with the sort of grammar or with the keyword. -/
theorem GoesOn.mem_of_nil {k : Kind} (h : GoesOn [] k) :
    k ∈ [Kind.docComment, .kwGrammar, .kwLexer, .kwParser] := by
  obtain ⟨more, h⟩ := h
  cases h with
  | doc | plain => decide
  | sorted hs =>
    revert hs
    revert k
    decide

/-- After the sort of grammar comes the keyword. -/
theorem GoesOn.eq_of_sort {sort k : Kind} (hs : sort ∈ [Kind.kwLexer, .kwParser])
    (h : GoesOn [sort] k) : k = .kwGrammar := by
  obtain ⟨more, h⟩ := h
  cases h with
  | doc | plain => exact absurd hs (by decide)
  | sorted => rfl

/-- A header that tells the sort of grammar is finished, or breaks. -/
theorem finishes_of_sort {a : Token} {us : List Token} (h : Terminated (a :: us))
    (hs : a.kind ∈ [Kind.kwLexer, .kwParser]) : Finishes limit sub far []
      (seq Production.grammarType (seq Production.identifier (tok .semi))) (a :: us) := by
  have hus := h.tail (by rintro he; rw [he] at hs; exact absurd hs (by decide))
  have hsort : read limit sub (token [.kwLexer, .kwParser]) (a :: us) =
      some ([.leaf a.index], us) := read_token_of_mem hs us
  have hsf : furthest limit sub far (token [.kwLexer, .kwParser]) (a :: us) = none :=
    furthest_token_of_mem hs us
  cases us with
  | nil => exact absurd rfl hus.ne_nil
  | cons g us =>
    -- the sort was read, so the keyword has to come
    by_cases hg : g.kind = .kwGrammar
    · have hk : g.kind ∈ [Kind.kwGrammar] := by simp [hg]
      have hkey : read limit sub (tok .kwGrammar) (g :: us) = some ([.leaf g.index], us) :=
        read_token_of_mem hk us
      have hboth : read limit sub (seq (token [.kwLexer, .kwParser]) (tok .kwGrammar))
          (a :: g :: us) = some ([.leaf a.index, .leaf g.index], us) := by
        rw [read_seq_of_some hsort, hkey]
        rfl
      have hread : Production.grammarType.read limit sub (a :: g :: us) =
          some ([Tree.ofChildren .grammarType [.leaf a.index, .leaf g.index]], us) := by
        rw [Production.grammarType, read_node, read_alt_of_some hboth]
        rfl
      have hfar : Production.grammarType.furthest limit sub far (a :: g :: us) = none := by
        rw [Production.grammarType, furthest_node, furthest_alt_of_some hboth,
          furthest_seq_of_some hsort, hsf, furthest_token_of_mem hk]
        rfl
      refine Finishes.seq (show a :: g :: us = [a, g] ++ us from rfl) hread (.inl hfar)
        (finishes_name ?_ ?_)
      · simpa [hg] using isHeader_sorted_iff hs
      · exact hus.tail (by simp [hg])
    · have hk : g.kind ∉ [Kind.kwGrammar] := by simpa using hg
      have hk' : a.kind ∉ [Kind.kwGrammar] := by
        intro ha
        rw [List.mem_singleton.1 ha] at hs
        exact absurd hs (by decide)
      have hboth : read limit sub (seq (token [.kwLexer, .kwParser]) (tok .kwGrammar))
          (a :: g :: us) = none := by
        rw [read_seq_of_some hsort, read_token_of_not_mem hk]
        rfl
      have hread : Production.grammarType.read limit sub (a :: g :: us) = none := by
        rw [Production.grammarType, read_node, read_alt_of_none hboth, read_token_of_not_mem hk']
        rfl
      refine .inr ⟨[a], g, us, rfl, ⟨.kwGrammar, [.ruleRef, .semi], .sorted hs (by decide)⟩,
        fun hgo ↦ hg (GoesOn.eq_of_sort hs hgo), read_seq_of_none hread _, ?_⟩
      -- the keyword is tried again in front of the sort, and that failure is not the furthest
      rw [furthest_seq_of_none hread, Production.grammarType, furthest_node,
        furthest_alt_of_none hboth, furthest_seq_of_some hsort, hsf,
        furthest_token_of_not_mem hk, furthest_token_of_not_mem hk']
      simp [Failure.further]

/-- A header that does not tell the sort of grammar is finished, or breaks. The sort is tried first
and fails at the first token; since the keyword is tried there as well, the place that is reported
is the same. -/
theorem finishes_of_no_sort {a : Token} {us : List Token} (h : Terminated (a :: us))
    (hd : a.kind ≠ .docComment) (hs : a.kind ∉ [Kind.kwLexer, .kwParser]) :
    Finishes limit sub far []
      (seq Production.grammarType (seq Production.identifier (tok .semi))) (a :: us) := by
  have hsort : read limit sub (seq (token [.kwLexer, .kwParser]) (tok .kwGrammar)) (a :: us) =
      none := read_seq_of_none (read_token_of_not_mem hs us) _
  have hsf : furthest limit sub far (seq (token [.kwLexer, .kwParser]) (tok .kwGrammar))
      (a :: us) = some (a :: us) := by
    rw [furthest_seq_of_none (read_token_of_not_mem hs us), furthest_token_of_not_mem hs]
  by_cases hg : a.kind = .kwGrammar
  · have hk : a.kind ∈ [Kind.kwGrammar] := by simp [hg]
    have hread : Production.grammarType.read limit sub (a :: us) =
        some ([Tree.ofChildren .grammarType [.leaf a.index]], us) := by
      rw [Production.grammarType, read_node, read_alt_of_none hsort, read_token_of_mem hk]
      rfl
    have hfar : Production.grammarType.furthest limit sub far (a :: us) = some ([a] ++ us) := by
      rw [Production.grammarType, furthest_node, furthest_alt_of_none hsort, hsf,
        furthest_token_of_mem hk]
      rfl
    refine Finishes.seq (show a :: us = [a] ++ us from rfl) hread (.inr ⟨_, hfar⟩)
      (finishes_name ?_ ?_)
    · simpa [hg] using isHeader_plain_iff
    · exact h.tail (by simp [hg])
  · have hk : a.kind ∉ [Kind.kwGrammar] := by simpa using hg
    have hread : Production.grammarType.read limit sub (a :: us) = none := by
      rw [Production.grammarType, read_node, read_alt_of_none hsort, read_token_of_not_mem hk]
      rfl
    -- both keywords are tried at the first token, so that is the place that is reported
    refine .inr ⟨[], a, us, rfl, ⟨.kwGrammar, [.ruleRef, .semi], .plain (by decide)⟩, ?_,
      read_seq_of_none hread _, ?_⟩
    · intro hgo
      have hm := GoesOn.mem_of_nil hgo
      simp only [List.mem_cons, hd, hg, false_or] at hm hs
      exact hs hm
    · rw [furthest_seq_of_none hread, Production.grammarType, furthest_node,
        furthest_alt_of_none hsort, hsf, furthest_token_of_not_mem hk]
      simp [Failure.further]

/-- The production of headers finishes a header of which nothing but documentation was read. -/
theorem finishes_grammarDecl {us : List Token} (h : Terminated us)
    (hd : ∀ t ∈ us.head?, t.kind ≠ .docComment) :
    Finishes limit sub far [] Production.grammarDecl us := by
  refine Finishes.node
    (p := seq Production.grammarType (seq Production.identifier (tok .semi))) ?_ _
  cases us with
  | nil => exact absurd rfl h.ne_nil
  | cons a us =>
    by_cases hs : a.kind ∈ [Kind.kwLexer, .kwParser]
    · exact finishes_of_sort h hs
    · exact finishes_of_no_sort h (hd a rfl) hs

/-- The doc comments in front of tokens. -/
theorem exists_docs (us : List Token) : ∃ docs vs, us = docs ++ vs ∧
    (∀ t ∈ docs, t.kind = .docComment) ∧ ∀ t ∈ vs.head?, t.kind ≠ .docComment := by
  induction us with
  | nil => exact ⟨[], [], rfl, by simp, by simp⟩
  | cons t us ih =>
    by_cases ht : t.kind = .docComment
    · obtain ⟨docs, vs, rfl, hdocs, hvs⟩ := ih
      exact ⟨t :: docs, vs, rfl, List.forall_mem_cons.2 ⟨ht, hdocs⟩, hvs⟩
    · exact ⟨[], t :: us, rfl, by simp, by simpa using ht⟩

end Pattern

open Pattern

/-- Documentation in front changes neither whether there is a header nor where it breaks. -/
theorem header_of_docs {docs : List Token} (hdocs : ∀ t ∈ docs, t.kind = .docComment) :
    (∀ us, StartsWithHeader us → StartsWithHeader (docs ++ us)) ∧
      ∀ us rest, BreaksAt us rest → BreaksAt (docs ++ us) rest := by
  induction docs with
  | nil => exact ⟨fun _ h ↦ h, fun _ _ h ↦ h⟩
  | cons t docs ih =>
    rw [List.forall_mem_cons] at hdocs
    exact ⟨fun us h ↦ ((ih hdocs.2).1 us h).doc hdocs.1,
      fun us rest h ↦ ((ih hdocs.2).2 us rest h).doc hdocs.1⟩

/-- **Reading a grammar**: it is read if it starts with a header, and else fails where the header
breaks. The two cases exclude each other (`not_startsWithHeader_of_breaksAt`). -/
theorem readGrammar_cases {us : List Token} (h : Terminated us) :
    (StartsWithHeader us ∧ ∃ tree, readGrammar us = .ok tree) ∨
      ∃ rest, BreaksAt us rest ∧ readGrammar us = .error (some rest) := by
  obtain ⟨docs, vs, rfl, hdocs, hvs⟩ := exists_docs us
  have hve : Terminated vs := h.of_append fun t ht ↦ by simp [hdocs t ht]
  have hread : read (docs ++ vs).length (Nest.read (docs ++ vs).length (docs ++ vs).length)
      (many (tok .docComment)) (docs ++ vs) = some (docs.map (.leaf ·.index), vs) :=
    congrArg some (readMany_tok hdocs hvs (by simp))
  have hheader : Finishes (docs ++ vs).length (Nest.read (docs ++ vs).length (docs ++ vs).length)
      (Nest.furthest (docs ++ vs).length (docs ++ vs).length) [] Production.grammarDecl vs :=
    finishes_grammarDecl hve hvs
  rcases hheader with ⟨hs, rest, ts, hv, hh, hr⟩ | ⟨A, t, B, hv, hA, ht, hr, hf⟩
  · refine .inl ⟨(header_of_docs hdocs).1 _ ⟨hs, rest, hv, hh⟩, ?_⟩
    -- the header is there, so the rest is read to its end
    have hlen : rest.length ≤ (docs ++ vs).length := by
      simp only [hv, List.length_append]
      omega
    have hrest := terminated_of_read (finds_readNest _ _) (by decide +kernel) hr hve
    obtain ⟨ts', hb⟩ := read_body (finds_readNest _ _) hlen hrest
    rw [readGrammar, Pattern.parse, Production.grammarSpec, read_node, seqs, seqs,
      read_seq_of_some hread, read_seq_of_some hr, hb]
    exact ⟨_, rfl⟩
  · refine .inr ⟨t :: B, (header_of_docs hdocs).2 _ _ ⟨A, t, B, hv, rfl, hA, ht⟩, ?_⟩
    -- the header breaks, and nothing further than that was tried
    have hdecl : read (docs ++ vs).length (Nest.read (docs ++ vs).length (docs ++ vs).length)
        Production.grammarSpec (docs ++ vs) = none := by
      rw [Production.grammarSpec, read_node, seqs, seqs, read_seq_of_some hread,
        read_seq_of_none hr]
      rfl
    have hdoc : furthest (docs ++ vs).length (Nest.read (docs ++ vs).length (docs ++ vs).length)
        (Nest.furthest (docs ++ vs).length (docs ++ vs).length) (many (tok .docComment))
        (docs ++ vs) = some vs := by
      cases vs with
      | nil => exact absurd rfl hve.ne_nil
      | cons v vs => exact furthestMany_tok vs hdocs (hvs v rfl) (by simp)
    rw [readGrammar, Pattern.parse, hdecl, furthestFailure, Production.grammarSpec, furthest_node,
      seqs, seqs, furthest_seq_of_some hread, hdoc, furthest_seq_of_none hr, hf, hv,
      Failure.further_suffix]

/-- **The header decides** whether a source can be read: nothing after it makes reading fail.
Without a header one thing is reported, with the line and the text of the first main token with
which no header goes on, or the end of the input if it is that. -/
theorem parse_tokenize_header (source : String) :
    ((∃ tree, parse (tokenize source) = .ok tree) ↔
      StartsWithHeader (tokenize source).mainTokens) ∧
    (¬ StartsWithHeader (tokenize source).mainTokens →
      ∃ A t B d, (tokenize source).mainTokens = A ++ t :: B ∧
        (∃ k, GoesOn (A.map Token.kind) k) ∧ ¬ GoesOn (A.map Token.kind) t.kind ∧
        parse (tokenize source) = .error d ∧ d.line = t.line ∧
        d.message =
          if t.kind = .eof then "unexpected end of input" else s!"unexpected `{t.text}`") := by
  rcases readGrammar_cases (terminated_tokenize source) with ⟨hh, tree, hr⟩ | ⟨rest, hb, hr⟩
  · have hp : parse (tokenize source) = .ok tree := by rw [parse, hr]
    exact ⟨⟨fun _ ↦ hh, fun _ ↦ ⟨tree, hp⟩⟩, fun hn ↦ absurd hh hn⟩
  · have hn := not_startsWithHeader_of_breaksAt hb
    have hp : parse (tokenize source) = .error ((tokenize source).diagnose (some rest)) := by
      rw [parse, hr]
    refine ⟨⟨fun ⟨tree, ht⟩ ↦ ?_, fun h ↦ absurd h hn⟩, fun _ ↦ ?_⟩
    · rw [hp] at ht
      exact absurd ht (by simp)
    · obtain ⟨A, t, B, he, rfl, hA, ht⟩ := hb
      refine ⟨A, t, B, _, he, hA, ht, hp, rfl, ?_⟩
      simp only [Stream.diagnose, Diagnostic.message, Token.isEof, beq_iff_eq]
      split <;> rfl

/-- A name where the keyword is missing breaks a header, on the line of the name. -/
theorem missing_keyword_reported :
    ¬ StartsWithHeader (tokenize "/** doc */ lexer\nT; a : b ;").mainTokens ∧
      ∃ A t B d, (tokenize "/** doc */ lexer\nT; a : b ;").mainTokens = A ++ t :: B ∧
        (∃ k, GoesOn (A.map Token.kind) k) ∧ ¬ GoesOn (A.map Token.kind) t.kind ∧
        parse (tokenize "/** doc */ lexer\nT; a : b ;") = .error d ∧ d.line = t.line ∧
        d.message =
          if t.kind = .eof then "unexpected end of input" else s!"unexpected `{t.text}`" := by
  have hk : (tokenize "/** doc */ lexer\nT; a : b ;").mainTokens.map Token.kind =
      [.docComment, .kwLexer, .tokenRef, .semi, .ruleRef, .colon, .ruleRef, .semi, .eof] := by
    decide +kernel
  have hn : ¬ StartsWithHeader (tokenize "/** doc */ lexer\nT; a : b ;").mainTokens := by
    rintro ⟨hs, rest, he, hh⟩
    rw [he, List.map_append] at hk
    generalize hs.map Token.kind = ks at hk hh
    cases hh with
    | doc hh => cases hh <;> simp at hk
    | plain | sorted => simp at hk
  exact ⟨hn, (parse_tokenize_header _).2 hn⟩

end GrammarLayout
