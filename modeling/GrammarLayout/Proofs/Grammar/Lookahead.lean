import GrammarLayout.Proofs.Grammar.Clean
import GrammarLayout.Proofs.Grammar.Recovery
import Mathlib.Data.Nat.Bitwise

/-!
# Look-ahead

Reading takes the first alternative that fits and repeats as long as it can, and gives nothing back.
It still finds every derivation of a pattern if two tokens tell at every choice which way a
derivation goes. What the next two tokens can be is computed from the pattern and from what comes
after it (`Pattern.views`), and a check compares these at every alternative, option and repetition
(`Pattern.clear`). The main result is that a pattern that passes is read just as it is derived
(`read_of_derives`).

Sets of kinds, and of pairs of kinds, are numbers with one bit for each member, so that the check of
all productions is a short computation.

Two tokens do not tell a parser rule from a lexer rule, for any number of modifiers may come first.
Here the first token that is no modifier decides (`ruleName`).

`Views` over-approximate: `Derives.sees` says that whatever is derived, with anything admissible
behind it, is admitted, and nothing is claimed of the converse. So two views that are disjoint tell
two patterns apart (`not_sees_of_disjoint`), which is how a pattern is shown not to be readable
(`read_eq_none_of_disjoint`). A repetition is seen as nothing or as one round with anything behind
it, which is coarse but enough for these productions, and keeps views from being a fixed point.

The induction in `read_of_derives` is on the derivation. At a choice the check says that the other
way is not seen, hence not read; at a repetition, that the next round is not seen behind it. For the
two kinds of rules, `ruleName` takes the place of views.
-/

namespace GrammarLayout

/-! ### Views -/

/-- The position of a kind in a set of kinds. -/
def Kind.number (k : Kind) : Nat := k.ctorIdx

theorem Kind.number_lt (k : Kind) : k.number < 64 := by cases k <;> decide

/-- The number of the first kind; where no token is left, the end of the input is seen. -/
def leadNumber : List Token → Nat
  | [] => Kind.eof.number
  | t :: _ => t.kind.number

/-- There are fewer than sixty-four kinds. -/
theorem leadNumber_lt (us : List Token) : leadNumber us < 64 := by
  cases us with
  | nil => exact Kind.number_lt _
  | cons t us => exact Kind.number_lt _

/-- What the next tokens can be: the first kind, and the pair of the first two. -/
structure Views where
  /-- The first kinds, one bit each. -/
  first : Nat
  /-- The pairs of kinds, one bit each, in rows of sixty-four. -/
  pairs : Nat

namespace Views

/-- Anything can come. -/
def any : Views := ⟨2 ^ 64 - 1, 2 ^ 4096 - 1⟩

/-- What one or the other admits. -/
def union (v w : Views) : Views := ⟨v.first ||| w.first, v.pairs ||| w.pairs⟩

/-- Whether no pair is admitted by both. -/
def disjoint (v w : Views) : Bool := v.pairs &&& w.pairs == 0

/-- A token of one of the kinds, and then what `v` admits. -/
def after (kinds : List Kind) (v : Views) : Views where
  first := kinds.foldr (fun k s ↦ 2 ^ k.number ||| s) 0
  pairs := kinds.foldr (fun k s ↦ v.first <<< (64 * k.number) ||| s) 0

/-- The tokens are such that their first two kinds are admitted. -/
structure Sees (v : Views) (us : List Token) : Prop where
  /-- The first kind is admitted. -/
  first : v.first.testBit (leadNumber us) = true
  /-- The first two kinds are. -/
  pairs : v.pairs.testBit (64 * leadNumber us + leadNumber us.tail) = true

/-- Nothing is excluded. -/
theorem sees_any (us : List Token) : any.Sees us := by
  have h := leadNumber_lt us
  have h' := leadNumber_lt us.tail
  constructor
  · rw [any, Nat.testBit_two_pow_sub_one]
    simpa using h
  · rw [any, Nat.testBit_two_pow_sub_one, decide_eq_true_eq]
    omega

variable {v w : Views} {us : List Token}

theorem Sees.left (h : v.Sees us) (w : Views) : (v.union w).Sees us :=
  ⟨by simp [union, h.first], by simp [union, h.pairs]⟩

theorem Sees.right (h : w.Sees us) (v : Views) : (v.union w).Sees us :=
  ⟨by simp [union, h.first], by simp [union, h.pairs]⟩

/-- What one view admits, a disjoint one does not. -/
theorem not_sees_of_disjoint (hd : v.disjoint w = true) (h : w.Sees us) : ¬ v.Sees us := by
  intro hv
  have hand : (v.pairs &&& w.pairs).testBit (64 * leadNumber us + leadNumber us.tail) = true := by
    rw [Nat.testBit_land, hv.pairs, h.pairs]
    rfl
  rw [beq_iff_eq.1 hd, Nat.zero_testBit] at hand
  exact absurd hand (by decide)

/-- A member of a set contributes its bits. -/
theorem testBit_foldr {f : Kind → Nat} {kinds : List Kind} {k : Kind} (hk : k ∈ kinds) {i : Nat}
    (h : (f k).testBit i = true) :
    (kinds.foldr (fun k s ↦ f k ||| s) 0).testBit i = true := by
  induction kinds with
  | nil => exact absurd hk List.not_mem_nil
  | cons a kinds ih =>
    rw [List.foldr_cons, Nat.testBit_lor, Bool.or_eq_true]
    rcases List.mem_cons.1 hk with rfl | hk
    · exact .inl h
    · exact .inr (ih hk)

/-- A token of one of the kinds, and behind it what was admitted. -/
theorem Sees.after {kinds : List Kind} {t : Token} (ht : t.kind ∈ kinds) (h : v.Sees us) :
    (after kinds v).Sees (t :: us) := by
  constructor
  · exact testBit_foldr ht Nat.testBit_two_pow_self
  · refine testBit_foldr ht ?_
    show (v.first <<< (64 * t.kind.number)).testBit (64 * t.kind.number + leadNumber us) = true
    rw [Nat.testBit_shiftLeft, Nat.add_sub_cancel_left, h.first]
    simp

end Views

open Views

namespace Pattern

/-- What can come where a pattern is derived, if `v` says what comes after it. -/
def views : Pattern → Views → Views
  | token kinds, v => after kinds v
  | stray, _ | strayEnd, _ => any
  | seq p q, v => p.views (q.views v)
  | alt p q, v => (p.views v).union (q.views v)
  | opt p, v => v.union (p.views v)
  | many p, v => v.union (p.views any)
  | node _ p, v => p.views v
  | nested _, _ => after [.lparen] any

/-- What is derived is seen. -/
theorem Derives.sees {p : Pattern} {us : List Token} {ts : List Tree} (h : Derives p us ts)
    {v : Views} {rest : List Token} (hv : v.Sees rest) : (p.views v).Sees (us ++ rest) := by
  induction h generalizing v rest with
  | token hk => exact hv.after hk
  | stray | strayEnd => exact sees_any _
  | seq _ _ ihp ihq =>
    rw [List.append_assoc]
    exact ihp (ihq hv)
  | altLeft _ ih => exact (ih hv).left _
  | altRight _ ih => exact (ih hv).right _
  | optNone | manyNil => exact hv.left _
  | optSome _ ih => exact (ih hv).right _
  | manyCons _ _ ihp _ =>
    rw [List.append_assoc]
    exact (ihp (sees_any _)).right _
  | node _ ih => exact ih hv
  | @nested nest us ts h ih =>
    obtain ⟨kind, p, q, hn⟩ := exists_parens nest
    rw [hn] at h
    obtain ⟨_, -, hbody⟩ := h.of_node
    obtain ⟨_, _, _, _, rfl, -, hl, -⟩ := hbody.of_seq
    obtain ⟨l, hk, rfl, -⟩ := hl.of_tok
    exact (sees_any _).after (by simp [hk])

/-- A pattern is not read where it is not seen. -/
theorem read_eq_none_of_disjoint {limit : Nat} {sub : Nest → Reader}
    (hsub : ∀ n, Finds (.nested n) (sub n)) {p : Pattern} {v : Views}
    (hd : (p.views any).disjoint v = true) {us : List Token} (h : v.Sees us) :
    p.read limit sub us = none := by
  refine Option.eq_none_iff_forall_ne_some.2 fun ⟨ts, rest⟩ hr ↦ ?_
  obtain ⟨vs, rfl, hp⟩ := finds_read hsub p hr
  exact not_sees_of_disjoint hd h (hp.sees (sees_any rest))

/-! ### The names of rules -/

/-- Whether tokens of this kind may stand in front of the name of a rule. -/
def leadsRule (k : Kind) : Bool :=
  [Kind.docComment, .kwPublic, .kwPrivate, .kwProtected, .kwFragment].contains k

/-- The kind of the first token that does not stand in front of the name of a rule. -/
def ruleName (us : List Token) : Option Kind :=
  (us.dropWhile fun t ↦ leadsRule t.kind).head?.map Token.kind

/-- Tokens in front of the name do not matter. -/
theorem ruleName_append {us vs : List Token} (h : ∀ t ∈ us, leadsRule t.kind = true) :
    ruleName (us ++ vs) = ruleName vs := by
  rw [ruleName, List.dropWhile_append_of_pos h, ruleName]

theorem Derives.ruleName_eq {p q r : Pattern} {k : Kind} (hp : p.holds leadsRule = true)
    (hq : q.holds leadsRule = true) (hk : leadsRule k = false) {us : List Token} {ts : List Tree}
    (h : Derives (.seq p (.seq q (.seq (.tok k) r))) us ts) (rest : List Token) :
    ruleName (us ++ rest) = some k := by
  obtain ⟨_, _, _, _, rfl, -, h₁, hqr⟩ := h.of_seq
  obtain ⟨_, _, _, _, rfl, -, h₂, hr⟩ := hqr.of_seq
  obtain ⟨_, _, _, _, rfl, -, h₃, -⟩ := hr.of_seq
  obtain ⟨t, rfl, rfl, -⟩ := h₃.of_tok
  rw [List.append_assoc, ruleName_append (h₁.forall_kind hp), List.append_assoc,
    ruleName_append (h₂.forall_kind hq), List.append_assoc, List.singleton_append, ruleName,
    List.dropWhile_cons_of_neg (by simp [hk])]
  rfl

theorem ruleName_of_parserRule {us : List Token} {ts : List Tree}
    (h : Derives Production.parserRuleSpec us ts) (rest : List Token) :
    ruleName (us ++ rest) = some .ruleRef := by
  obtain ⟨_, -, hbody⟩ := Derives.of_node h
  exact Derives.ruleName_eq (by decide) (by decide) (by decide) hbody rest

theorem ruleName_of_lexerRule {us : List Token} {ts : List Tree}
    (h : Derives Production.lexerRuleSpec us ts) (rest : List Token) :
    ruleName (us ++ rest) = some .tokenRef := by
  obtain ⟨_, -, hbody⟩ := Derives.of_node h
  exact Derives.ruleName_eq (by decide) (by decide) (by decide) hbody rest

/-- A lexer rule is not read as a parser rule. -/
theorem read_parserRule_of_lexerRule {limit : Nat} {sub : Nest → Reader}
    (hsub : ∀ n, Finds (.nested n) (sub n)) {us : List Token} {ts : List Tree}
    (h : Derives Production.lexerRuleSpec us ts) (rest : List Token) :
    Production.parserRuleSpec.read limit sub (us ++ rest) = none := by
  refine Option.eq_none_iff_forall_ne_some.2 fun ⟨ts', rest'⟩ hr ↦ ?_
  obtain ⟨vs, hv, hp⟩ := finds_read hsub _ hr
  have hname := ruleName_of_parserRule hp rest'
  rw [← hv, ruleName_of_lexerRule h rest] at hname
  exact absurd hname (by decide)

/-! ### Clear patterns -/

/-- Whether two tokens tell at every choice of a pattern which way a derivation goes, if `v` says
what comes after it. Rules are told apart by their names. -/
def clear : Pattern → Views → Bool
  | token _, _ | nested _, _ => true
  | stray, _ | strayEnd, _ => false
  | seq p q, v => p.clear (q.views v) && q.clear v
  | alt p q, v =>
    p.clear v && q.clear v &&
      ((p.views any).disjoint (q.views v) ||
        alt p q == alt Production.parserRuleSpec Production.lexerRuleSpec)
  | opt p, v => p.clear v && (p.views any).disjoint v
  | many p, v => p.takesToken && p.clear (v.union (p.views any)) && (p.views any).disjoint v
  | node _ p, v => p.clear v

/-- Sub-rules are clear whatever comes after them, as they end with a parenthesis. -/
theorem clear_ofNest (nest : Nest) : (Production.ofNest nest).clear any = true := by
  cases nest <;> decide +kernel

/-- **A repetition is read as it is derived**, if each of its rounds is read so where something
derivable follows, and the next round fails. -/
theorem readMany_of_derives {p : Pattern} {r : Reader} {P : List Token → Prop} {N : Nat}
    (hp : p.takesToken = true)
    (hr : ∀ {us : List Token} {ts : List Tree} {rest : List Token}, Derives p us ts →
      us.length ≤ N → P rest → r (us ++ rest) = some (ts, rest))
    {rest : List Token}
    (hP : ∀ {us : List Token} {ts : List Tree}, Derives (.many p) us ts → P (us ++ rest))
    (hend : r rest = none) {us : List Token} {ts : List Tree} (h : Derives (.many p) us ts)
    (hN : us.length ≤ N) {n : Nat} (hn : us.length ≤ n) :
    readMany r n (us ++ rest) = (ts, rest) := by
  generalize hq : Pattern.many p = q at h
  induction h generalizing n with
  | manyNil => exact readMany_of_none hend n
  | @manyCons p' us vs ts ts' h₁ h₂ _ ih =>
    obtain rfl := Pattern.many.inj hq
    have hpos := List.length_pos_iff.2 (h₁.ne_nil hp)
    rw [List.length_append] at hN hn
    obtain ⟨n, rfl⟩ : ∃ m, n = m + 1 := ⟨n - 1, by omega⟩
    have hmore : readMany r n (vs ++ rest) = (ts', rest) := ih (by omega) (by omega) rfl
    rw [List.append_assoc, readMany, hr h₁ (by omega) (hP h₂)]
    simp only [hmore]
  | _ => exact absurd hq (by simp)

/-- Sub-rules in parentheses are read as they are derived, up to `N` tokens of them. -/
structure ReadsNests (limit N : Nat) (sub : Nest → Reader) : Prop where
  /-- The bound on repetitions suits the tokens. -/
  le_limit : N ≤ limit
  /-- Only derivations are found. -/
  finds : ∀ n, Finds (.nested n) (sub n)
  /-- All derivations are found, whatever comes after them. -/
  reads : ∀ {n : Nest} {us : List Token} {ts : List Tree} (rest : List Token),
    Derives (.nested n) us ts → us.length ≤ N → sub n (us ++ rest) = some (ts, rest)

/-- **A clear pattern is read as it is derived**, whatever comes after it that it is clear with, if
sub-rules are. -/
theorem read_of_derives {limit N : Nat} {sub : Nest → Reader} (hs : ReadsNests limit N sub)
    {p : Pattern} {v : Views} (hc : p.clear v = true) {us : List Token} {ts : List Tree}
    {rest : List Token} (h : Derives p us ts) (hN : us.length ≤ N) (hv : v.Sees rest) :
    p.read limit sub (us ++ rest) = some (ts, rest) := by
  induction p generalizing v us ts rest with
  | token kinds =>
    cases h with
    | token hk => exact read_token_of_mem hk rest
  | stray | strayEnd => exact absurd hc (by simp [clear])
  | nested n => exact hs.reads rest h hN
  | node kind p ih =>
    cases h with
    | node h => rw [read_node, ih hc h hN hv]; rfl
  | seq p q ihp ihq =>
    obtain ⟨hcp, hcq⟩ := Bool.and_eq_true_iff.1 hc
    cases h with
    | seq h₁ h₂ =>
      rw [List.length_append] at hN
      rw [List.append_assoc, read_seq_of_some (ihp hcp h₁ (by omega) (h₂.sees hv)),
        ihq hcq h₂ (by omega) hv]
      rfl
  | alt p q ihp ihq =>
    obtain ⟨hcpq, hd⟩ := Bool.and_eq_true_iff.1 hc
    obtain ⟨hcp, hcq⟩ := Bool.and_eq_true_iff.1 hcpq
    cases h with
    | altLeft h => exact read_alt_of_some (ihp hcp h hN hv) q
    | altRight h =>
      -- the first alternative has to fail on what the second one derives
      have hfail : p.read limit sub (us ++ rest) = none := by
        rcases Bool.or_eq_true_iff.1 hd with hd | hd
        · exact read_eq_none_of_disjoint hs.finds hd (h.sees hv)
        · obtain ⟨rfl, rfl⟩ := Pattern.alt.inj (beq_iff_eq.1 hd)
          exact read_parserRule_of_lexerRule hs.finds h rest
      rw [read_alt_of_none hfail]
      exact ihq hcq h hN hv
  | opt p ih =>
    obtain ⟨hcp, hd⟩ := Bool.and_eq_true_iff.1 hc
    cases h with
    | optNone =>
      have hfail : p.read limit sub rest = none := read_eq_none_of_disjoint hs.finds hd hv
      simp only [read, List.nil_append, hfail, Option.getD_none]
    | optSome h => simp only [read, ih hcp h hN hv, Option.getD_some]
  | many p ih =>
    obtain ⟨hcp, hd⟩ := Bool.and_eq_true_iff.1 hc
    obtain ⟨ht, hcp⟩ := Bool.and_eq_true_iff.1 hcp
    have hround : ∀ {us : List Token} {ts : List Tree} {rest : List Token}, Derives p us ts →
        us.length ≤ N → (v.union (p.views any)).Sees rest →
        p.read limit sub (us ++ rest) = some (ts, rest) := fun h hN hv ↦ ih hcp h hN hv
    exact congrArg some (readMany_of_derives ht hround (fun h ↦ h.sees hv)
      (read_eq_none_of_disjoint hs.finds hd hv) h hN (hN.trans hs.le_limit))

/-- **Sub-rules in parentheses are read as they are derived**, whatever comes after them. -/
theorem readsNests_read {limit depth : Nat} (hl : depth ≤ limit) :
    ReadsNests limit depth (Nest.read limit depth) := by
  refine ⟨hl, finds_readNest limit depth, fun {n us ts} rest h hd ↦ ?_⟩
  induction depth generalizing n us ts rest with
  | zero =>
    obtain rfl := List.length_eq_zero_iff.1 (Nat.le_zero.1 hd)
    exact absurd rfl (h.ne_nil rfl)
  | succ depth ih =>
    cases h with
    | nested h =>
      obtain ⟨kind, p, q, hn⟩ := exists_parens n
      have hc := clear_ofNest n
      rw [hn] at h hc
      have hc : (seq p (seq q (tok .rparen))).clear any = true := hc
      have hs : ReadsNests limit depth (Nest.read limit depth) :=
        ⟨by omega, finds_readNest limit depth, fun rest h hN ↦ ih (by omega) rest h hN⟩
      rw [Nest.read, hn, read_node]
      obtain ⟨_, rfl, hbody⟩ := h.of_node
      obtain ⟨_, _, _, _, rfl, rfl, hl, hinner⟩ := hbody.of_seq
      -- the parenthesis is a token less for the sub-rules inside
      obtain ⟨l, hk, rfl, rfl⟩ := hl.of_tok
      rw [List.singleton_append, List.length_cons] at hd
      rw [List.append_assoc, List.singleton_append,
        read_seq_of_some (read_token_of_mem (by simp [hk]) _),
        read_of_derives hs hc hinner (by omega) (sees_any rest)]
      rfl

end Pattern

end GrammarLayout
