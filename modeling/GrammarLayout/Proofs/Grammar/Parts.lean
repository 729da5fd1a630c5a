import GrammarLayout.Proofs.Grammar.Bounds
import GrammarLayout.Proofs.Grammar.Modes
import GrammarLayout.Tree.Event

/-!
# Where rules and modes stand

A grammar is a prelude, the node of the rules, modes and the end marker, and each of these parts is
read off the tokens that the part before it leaves (`Pattern.exists_parts`). Rules stand in the node
of the rules and nowhere else, and modes right inside the grammar: no other production forms such a
node.

So an event at which a rule or a mode is entered says where in the grammar the walk is
(`Pattern.Stands`): over which trees it has come, and what is read off the tokens from the first
token of that rule or mode on. The reader has no state but the tokens that are left, so nothing of
what it has read before is part of the latter.

Two kinds of facts are needed, and they come from different sides. What is read before the node is
only known as a derivation, since nothing more of it matters: over which tokens its trees stand.
What is read after it is known as a reading, `Pattern.parse` of the tokens that are left, because it
has to be determined by these tokens. A derivation would not do, as the same tokens can be derived
in more than one way when regions may be recovered. `Pattern.Stands` keeps the two sides apart.

That the node is found in the right part is a matter of excluding the others: a production that
forms no node of a kind has no event that enters one (`Pattern.Derives.not_mem_enter`).
-/

namespace GrammarLayout

/-! ### Events of a walk -/

namespace Tree

variable {s : Stream} {es rest : List Event} {e : Event}

theorem eventsAll_append (s : Stream) (ts ts' : List Tree) :
    eventsAll s (ts ++ ts') = eventsAll s ts ++ eventsAll s ts' := by
  induction ts with
  | nil => rfl
  | cons t ts ih => rw [List.cons_append, eventsAll, ih, eventsAll, List.append_assoc]

/-- An event of a walk over trees is one of the walk over one of them. -/
theorem exists_of_eventsAll {ts : List Tree} (h : eventsAll s ts = es ++ e :: rest) :
    ∃ pre c post es₁ rest₁, ts = pre ++ c :: post ∧ es = eventsAll s pre ++ es₁ ∧
      c.events s = es₁ ++ e :: rest₁ := by
  induction ts generalizing es with
  | nil => exact absurd h (by simp [eventsAll])
  | cons t ts ih =>
    rw [eventsAll] at h
    rcases append_eq_append_cons h with ⟨rest₁, ht, -⟩ | ⟨es', rfl, hts⟩
    · exact ⟨[], t, ts, es, rest₁, rfl, rfl, ht⟩
    · obtain ⟨pre, c, post, es₁, rest₁, rfl, rfl, hc⟩ := ih hts
      exact ⟨t :: pre, c, post, es₁, rest₁, rfl, by rw [eventsAll, List.append_assoc], hc⟩

/-- Where a node is entered, it is the one that is walked over, or one below it. In the second case
the walk has entered the outer one first. -/
theorem of_events_ofChildren {k kind : NodeKind} {span : Option Span} {ts : List Tree}
    (h : (ofChildren k ts).events s = es ++ .enter kind span :: rest) :
    (k = kind ∧ spanOf? ts = span ∧ es = []) ∨
      ∃ es₁ rest₁, es = .enter k (spanOf? ts) :: es₁ ∧
        eventsAll s ts = es₁ ++ .enter kind span :: rest₁ := by
  rw [ofChildren, events] at h
  cases es with
  | nil =>
    obtain ⟨rfl, rfl⟩ := Event.enter.inj (List.cons.inj h).1
    exact .inl ⟨rfl, rfl, rfl⟩
  | cons a es =>
    obtain ⟨rfl, hin⟩ := List.cons.inj h
    rcases append_eq_append_cons hin with ⟨rest₁, hts, -⟩ | ⟨es', -, hleave⟩
    · exact .inr ⟨es, rest₁, rfl, hts⟩
    · have hmem : Event.enter kind span ∈ [Event.leave k (spanOf? ts)] := by rw [hleave]; simp
      exact absurd hmem (by simp)

mutual

/-- Only nodes are entered. -/
theorem exists_node_of_enter {kind : NodeKind} {span : Option Span} :
    ∀ t : Tree, .enter kind span ∈ t.events s → ∃ n ∈ t.nodes, n.kind = kind ∧ n.span = span
  | .leaf i, h => by
    rw [events] at h
    cases hi : s.get? i <;> rw [hi] at h <;> exact absurd h (by simp)
  | .stray i, h => by
    rw [events] at h
    cases hi : s.get? i <;> rw [hi] at h <;> exact absurd h (by simp)
  | .node k sp ts, h => by
    rw [events, List.mem_cons, List.mem_append] at h
    rw [nodes]
    rcases h with h | h | h
    · obtain ⟨rfl, rfl⟩ := Event.enter.inj h
      exact ⟨_, List.mem_cons_self, rfl, rfl⟩
    · obtain ⟨n, hn, hk⟩ := exists_nodesAll_of_enter ts h
      exact ⟨n, List.mem_cons_of_mem _ hn, hk⟩
    · exact absurd h (by simp)

theorem exists_nodesAll_of_enter {kind : NodeKind} {span : Option Span} :
    ∀ ts : List Tree, .enter kind span ∈ eventsAll s ts →
      ∃ n ∈ nodesAll ts, n.kind = kind ∧ n.span = span
  | [], h => absurd h (by simp [eventsAll])
  | t :: ts, h => by
    rw [eventsAll, List.mem_append] at h
    rw [nodesAll]
    rcases h with h | h
    · obtain ⟨n, hn, hk⟩ := exists_node_of_enter t h
      exact ⟨n, List.mem_append_left _ hn, hk⟩
    · obtain ⟨n, hn, hk⟩ := exists_nodesAll_of_enter ts h
      exact ⟨n, List.mem_append_right _ hn, hk⟩

end

end Tree

/-- Over tokens in order, the span of a node that is entered starts no later than it stops. So its
first position is the start of the span. -/
theorem Over.start_le_stop_of_enter {us : List Token} {ts : List Tree} (h : Over us ts)
    (hus : us.Pairwise fun t u ↦ t.index < u.index) {s : Stream} {kind : NodeKind} {sp : Span}
    (he : .enter kind (some sp) ∈ Tree.eventsAll s ts) : sp.start ≤ sp.stop := by
  obtain ⟨n, hn, -, hspan⟩ := Tree.exists_nodesAll_of_enter ts he
  clear he
  induction h with
  | nil => exact absurd hn List.not_mem_nil
  | leaf _ ih | stray _ ih => exact ih hus.of_cons hn
  | @node _ us vs ts ts' hu _ ih₁ ih₂ =>
    obtain ⟨hus₁, hus₂, -⟩ := List.pairwise_append.1 hus
    rw [Tree.nodesAll, Tree.ofChildren, Tree.nodes, List.cons_append, List.mem_cons,
      List.mem_append] at hn
    rcases hn with rfl | hn | hn
    · exact hu.start_le_stop hus₁ sp hspan
    · exact ih₁ hus₁ hn
    · exact ih₂ hus₂ hn

namespace Pattern

section Enters

variable {p : Pattern} {kind : NodeKind} {us : List Token} {s : Stream}
  (hn : ∀ n, (Production.ofNest n).formsNo kind = true) (hp : p.formsNo kind = true)
include hn hp

/-- Trees of a pattern that forms no node of a kind enter none. -/
theorem Derives.not_mem_enter {ts : List Tree} (h : Derives p us ts) (span : Option Span) :
    .enter kind span ∉ Tree.eventsAll s ts := by
  intro hm
  obtain ⟨n, hin, hk, -⟩ := Tree.exists_nodesAll_of_enter ts hm
  exact h.kind_ne_of_formsNo hn hp n hin hk

/-- A tree that enters one is not among them, so it stands in another part. -/
theorem Derives.not_mem_of_enters {ts : List Tree} (h : Derives p us ts) {c : Tree}
    {span : Option Span} (hc : .enter kind span ∈ c.events s) : c ∉ ts := by
  intro hm
  refine h.not_mem_enter hn hp span (s := s) ?_
  obtain ⟨pre, post, rfl⟩ := List.append_of_mem hm
  rw [Tree.eventsAll_append, Tree.eventsAll]
  simp [hc]

/-- A node of the kind that is entered is the one that the walk begins with, if none is formed below
it, and it starts with the first token. -/
theorem Derives.of_enters {c : Tree} (h : Derives (.node kind p) us [c])
    (ht : p.takesToken = true) {es rest : List Event} {span : Option Span}
    (hc : c.events s = es ++ .enter kind span :: rest) :
    es = [] ∧ ∃ sp, span = some sp ∧ us.head?.map (·.index) = some sp.start := by
  obtain ⟨ts, hts, hd⟩ := Derives.of_node h
  obtain rfl : c = Tree.ofChildren kind ts := (List.cons.inj hts).1
  rcases Tree.of_events_ofChildren hc with ⟨-, hspan, rfl⟩ | ⟨es₁, rest₁, -, hin⟩
  · obtain ⟨a, vs, rfl⟩ := List.exists_cons_of_ne_nil (hd.ne_nil ht)
    rw [hd.over.spanOf?_eq, List.getLast?_cons] at hspan
    exact ⟨rfl, _, hspan.symm, rfl⟩
  · have hmem : .enter kind span ∈ Tree.eventsAll s ts := by rw [hin]; simp
    exact absurd hmem (hd.not_mem_enter hn hp _)

end Enters

/-! ### Parts of a grammar -/

end Pattern

namespace Production

open Pattern

/-- What stands before the rules. -/
def prelude : Pattern := seqs (many (tok .docComment)) [grammarDecl, many prequelConstruct]

/-- A rule, or what is kept of one that cannot be read. -/
def anyRule : Pattern := alt ruleSpec recovered

end Production

namespace Pattern

open Production

/-- **The parts of a grammar** are read one after the other, each off the tokens that are left. -/
theorem exists_parts {us : List Token} {tree : Tree} (h : readGrammar us = .ok tree) :
    ∃ P R M E vs ws ws₁ ws₂,
      tree = Tree.ofChildren .grammarSpec (P ++ Tree.ofChildren .rules R :: (M ++ E)) ∧
      us = vs ++ ws ∧ Derives prelude vs P ∧ (many anyRule).parse ws = some (R, ws₁) ∧
      (many modeSpec).parse ws₁ = some (M, ws₂) ∧ (tok .eof).parse ws₂ = some (E, []) := by
  obtain ⟨ts, hbody, hts⟩ := of_read_node (parse_of_readGrammar h)
  obtain rfl := (List.cons.inj hts).1
  obtain ⟨ts₁, us₁, _, hdocs, hafter₁, rfl⟩ := of_parse_seq (by decide +kernel) hbody
  obtain ⟨ts₂, us₂, _, hdecl, hafter₂, rfl⟩ := of_parse_seq (by decide +kernel) hafter₁
  obtain ⟨ts₃, us₃, _, hprequel, hafter₃, rfl⟩ := of_parse_seq (by decide +kernel) hafter₂
  obtain ⟨_, us₄, _, hrules, hafter₄, rfl⟩ := of_parse_seq (by decide +kernel) hafter₃
  obtain ⟨M, us₅, E, hmodes, heof, rfl⟩ := of_parse_seq (by decide +kernel) hafter₄
  obtain ⟨R, hrounds, rfl⟩ := of_read_node hrules
  obtain ⟨v₁, rfl, hd₁⟩ := finds_parse _ hdocs
  obtain ⟨v₂, rfl, hd₂⟩ := finds_parse _ hdecl
  obtain ⟨v₃, rfl, hd₃⟩ := finds_parse _ hprequel
  exact ⟨ts₁ ++ (ts₂ ++ ts₃), R, M, E, v₁ ++ (v₂ ++ v₃), us₃, us₄, us₅, by simp, by simp,
    .seq hd₁ (.seq hd₂ hd₃), hrounds, hmodes, heof⟩

/-- A rule makes one tree, whether it can be read or not. -/
theorem one_of_read_anyRule {limit : Nat} {sub : Nest → Reader} {us rest : List Token}
    {ts : List Tree} (h : anyRule.read limit sub us = some (ts, rest)) : ∃ t, ts = [t] := by
  cases hr : ruleSpec.read limit sub us with
  | none =>
    rw [anyRule, read_alt_of_none hr] at h
    obtain ⟨ts', -, rfl⟩ := of_read_node h
    exact ⟨_, rfl⟩
  | some r =>
    rw [anyRule, read_alt_of_some hr] at h
    obtain ⟨ts', -, hts⟩ := of_read_node hr
    exact ⟨_, (Prod.mk.inj (Option.some.inj h)).1.symm.trans hts⟩

theorem one_of_read_modeSpec {limit : Nat} {sub : Nest → Reader} {us rest : List Token}
    {ts : List Tree} (h : modeSpec.read limit sub us = some (ts, rest)) : ∃ t, ts = [t] := by
  obtain ⟨ts', -, rfl⟩ := of_read_node h
  exact ⟨_, rfl⟩

/-- A walk over the tree of `us` has come to a rule or a mode: `es` are the events before it is
entered, and `i` is the position of its first token. What comes after it is what is read off the
tokens from that one on. -/
inductive Stands (s : Stream) : List Token → Tree → NodeKind → List Event → Nat → Prop
  /-- To a rule, which stands in the node of the rules. -/
  | rule {P pre R M E : List Tree} {us vs ws ws₁ ws₂ : List Token} {i : Nat}
      (hP : Derives prelude us P) (hpre : Derives (many anyRule) vs pre)
      (hR : (many anyRule).parse ws = some (R, ws₁)) (hspan : (Tree.spanOf? R).isSome = true)
      (hM : (many modeSpec).parse ws₁ = some (M, ws₂)) (hE : (tok .eof).parse ws₂ = some (E, []))
      (hi : ws.head?.map (·.index) = some i) :
      Stands s (us ++ (vs ++ ws))
        (Tree.ofChildren .grammarSpec (P ++ Tree.ofChildren .rules (pre ++ R) :: (M ++ E)))
        .ruleSpec
        (.enter .grammarSpec
          (Tree.spanOf? (P ++ Tree.ofChildren .rules (pre ++ R) :: (M ++ E))) ::
          (Tree.eventsAll s P ++
            .enter .rules (Tree.spanOf? (pre ++ R)) :: Tree.eventsAll s pre)) i
  /-- To a mode, which stands right inside the grammar. -/
  | mode {P R pre M E : List Tree} {us vs vs' ws ws₁ : List Token} {i : Nat}
      (hP : Derives prelude us P) (hR : Derives (many anyRule) vs R)
      (hpre : Derives (many modeSpec) vs' pre) (hM : (many modeSpec).parse ws = some (M, ws₁))
      (hE : (tok .eof).parse ws₁ = some (E, [])) (hi : ws.head?.map (·.index) = some i) :
      Stands s (us ++ (vs ++ (vs' ++ ws)))
        (Tree.ofChildren .grammarSpec (P ++ Tree.ofChildren .rules R :: (pre ++ M ++ E)))
        .modeSpec
        (.enter .grammarSpec
          (Tree.spanOf? (P ++ Tree.ofChildren .rules R :: (pre ++ M ++ E))) ::
          Tree.eventsAll s (P ++ Tree.ofChildren .rules R :: pre)) i

/-- An element of three lists side by side that is in neither of the outer ones is in the one
between them. -/
theorem exists_split_of_not_mem {α : Type} {as bs cs pre post : List α} {c : α}
    (h : as ++ (bs ++ cs) = pre ++ c :: post) (ha : c ∉ as) (hc : c ∉ cs) :
    ∃ bs₁ bs₂, bs = bs₁ ++ c :: bs₂ ∧ pre = as ++ bs₁ := by
  rcases append_eq_append_cons h with ⟨as', rfl, -⟩ | ⟨pre', rfl, hbs⟩
  · exact absurd (by simp) ha
  · rcases append_eq_append_cons hbs with ⟨bs', rfl, -⟩ | ⟨cs', rfl, rfl⟩
    · exact ⟨pre', bs', rfl, rfl⟩
    · exact absurd (by simp) hc

/-- The first token stays the first one. -/
theorem head?_append_of_head? {us : List Token} {i : Nat}
    (h : us.head?.map (·.index) = some i) (vs : List Token) :
    (us ++ vs).head?.map (·.index) = some i := by
  cases us with
  | nil => exact absurd h (by simp)
  | cons => exact h

/-- **A rule that is entered stands in the node of the rules.** -/
theorem stands_rule {us : List Token} {tree : Tree} (h : readGrammar us = .ok tree) {s : Stream}
    {es rest : List Event} {span : Option Span}
    (he : tree.events s = es ++ .enter .ruleSpec span :: rest) :
    ∃ sp, span = some sp ∧ Stands s us tree .ruleSpec es sp.start := by
  have hn : ∀ n, (ofNest n).formsNo .ruleSpec = true := formsNo_ofNest (by decide)
  obtain ⟨P, R, M, E, vs, ws, ws₁, ws₂, rfl, rfl, hP, hR, hM, hE⟩ := exists_parts h
  rcases Tree.of_events_ofChildren he with ⟨hk, -⟩ | ⟨es₁, _, rfl, hin⟩
  · exact absurd hk (by decide)
  obtain ⟨pre, c, post, es₂, _, hts, rfl, hc⟩ := Tree.exists_of_eventsAll hin
  -- neither the prelude nor the modes have such a rule in them
  have hmem : .enter .ruleSpec span ∈ c.events s := by rw [hc]; simp
  have hP' : c ∉ P := hP.not_mem_of_enters hn (by decide +kernel) hmem
  have hME : c ∉ M ++ E := by
    obtain ⟨_, -, hdM⟩ := finds_parse _ hM
    obtain ⟨_, -, hdE⟩ := finds_parse _ hE
    exact (Derives.seq hdM hdE).not_mem_of_enters hn (by decide +kernel) hmem
  obtain ⟨rfl, rfl, rfl⟩ := (List.append_cons_inj_of_notMem hP' hME).1 hts
  rcases Tree.of_events_ofChildren hc with ⟨hk, -⟩ | ⟨es₃, _, rfl, hinR⟩
  · exact absurd hk (by decide)
  obtain ⟨preR, c', postR, es₄, _, rfl, rfl, hc'⟩ := Tree.exists_of_eventsAll hinR
  obtain ⟨us, vs', ws', rfl, hpre, hd, hround⟩ :=
    exists_round_of_many (by decide +kernel) (by decide +kernel) one_of_read_anyRule hR
  have hspan := isSome_spanOf?_of_many (by decide +kernel) (by decide +kernel)
    one_of_read_anyRule hround
  have hmem' : .enter .ruleSpec span ∈ c'.events s := by rw [hc']; simp
  cases hd with
  | altLeft hd =>
    obtain ⟨rfl, sp, rfl, hi⟩ := hd.of_enters hn (by decide +kernel) (by decide +kernel) hc'
    rw [List.append_nil]
    exact ⟨sp, rfl, .rule hP hpre hround hspan hM hE (head?_append_of_head? hi ws')⟩
  | altRight hd =>
    exact absurd List.mem_cons_self (hd.not_mem_of_enters hn (by decide +kernel) hmem')

/-- **A mode that is entered stands right inside the grammar.** -/
theorem stands_mode {us : List Token} {tree : Tree} (h : readGrammar us = .ok tree) {s : Stream}
    {es rest : List Event} {span : Option Span}
    (he : tree.events s = es ++ .enter .modeSpec span :: rest) :
    ∃ sp, span = some sp ∧ Stands s us tree .modeSpec es sp.start := by
  have hn : ∀ n, (ofNest n).formsNo .modeSpec = true := formsNo_ofNest (by decide)
  obtain ⟨P, R, M, E, vs, ws, ws₁, ws₂, rfl, rfl, hP, hR, hM, hE⟩ := exists_parts h
  rcases Tree.of_events_ofChildren he with ⟨hk, -⟩ | ⟨es₁, _, rfl, hin⟩
  · exact absurd hk (by decide)
  obtain ⟨pre, c, post, es₂, _, hts, rfl, hc⟩ := Tree.exists_of_eventsAll hin
  obtain ⟨vs', rfl, hdR⟩ := finds_parse _ hR
  have hmem : .enter .modeSpec span ∈ c.events s := by rw [hc]; simp
  have hPR : c ∉ P ++ [Tree.ofChildren .rules R] :=
    (Derives.seq hP (.node hdR)).not_mem_of_enters hn (by decide +kernel) hmem
  have hE' : c ∉ E := by
    obtain ⟨_, -, hdE⟩ := finds_parse _ hE
    exact hdE.not_mem_of_enters hn (by decide +kernel) hmem
  have hsplit : (P ++ [Tree.ofChildren .rules R]) ++ (M ++ E) = pre ++ c :: post := by
    simpa using hts
  obtain ⟨preM, postM, rfl, rfl⟩ := exists_split_of_not_mem hsplit hPR hE'
  obtain ⟨us, ws, ws', rfl, hpre, hd, hround⟩ :=
    exists_round_of_many (by decide +kernel) (by decide +kernel) one_of_read_modeSpec hM
  obtain ⟨rfl, sp, rfl, hi⟩ := hd.of_enters hn (by decide +kernel) (by decide +kernel) hc
  rw [List.append_nil, List.append_assoc P, List.singleton_append]
  exact ⟨sp, rfl, .mode hP hdR hpre hround hE (head?_append_of_head? hi ws')⟩

/-- **A rule or a mode that is entered** stands where one of its kind may, and covers a token. -/
theorem stands_of_enter {us : List Token} {tree : Tree} (h : readGrammar us = .ok tree)
    {kind : NodeKind} (hk : kind = .ruleSpec ∨ kind = .modeSpec) {s : Stream}
    {es rest : List Event} {span : Option Span}
    (he : tree.events s = es ++ .enter kind span :: rest) :
    ∃ sp, span = some sp ∧ Stands s us tree kind es sp.start := by
  rcases hk with rfl | rfl
  · exact stands_rule h he
  · exact stands_mode h he

end Pattern

end GrammarLayout
