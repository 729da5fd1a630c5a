import GrammarLayout.Proofs.Grammar.Acceptance
import GrammarLayout.Proofs.Grammar.Modes
import GrammarLayout.Proofs.Layout.Gauge

/-!
# Drift of the depth

Where everything could be read, the depth is a matter of the productions. Three checks of a pattern
say what its trees do to it, each with one induction on derivations:

* `Pattern.level` follows the height above some base through a pattern, and gives it only where all
  choices agree on it. Constructs with a frame of their own come back to the height at which they
  were entered, without a warning, if their own tokens do.
* `Pattern.rises` is for what stands right inside a lexer rule. The height there is not a matter of
  the productions: it rises at every colon, and a lexer rule has a colon for itself and one more for
  each sub-rule with options of its own.
* `Pattern.carries` puts the two together for what stands at depth zero.

So the only warnings about a source in which everything could be read are those of lexer rules with
more than one colon, each of which drifts by the colons beyond the first
(`warnings_eq_of_no_diagnostics`).

The formatter is not mentioned in these checks: `Gauge` is what the walk does to the depth and the
warnings, and each theorem here is about `Tree.settleAll`, which runs the gauge along trees. A
construct without a frame of its own is counted with the one around it, so the checks go through
such nodes and stop at the others.

The colons of a lexer rule are the one place where the count is off. A rule that has a frame goes
one level deeper at its colon and comes back at its semicolon, and sub-rules of lexer rules have no
frame of their own, so that the colon behind their options is counted with the rule.
-/

namespace GrammarLayout

/-! ### Heights -/

/-- The height after a leaf right inside a construct of this category; nothing if it would drop
below zero. -/
def Category.pass (c : Category) (n : Nat) (kind : Kind) : Option Nat :=
  if c.opens kind then some (n + 1)
  else if c.closes kind then if n = 0 then none else some (n - 1)
  else some n

/-- The height after a leaf of any of the kinds, if it is the same for all of them. -/
def Category.passAny (c : Category) (n : Nat) : List Kind → Option Nat
  | [] => none
  | kind :: kinds => if kinds.all (c.pass n · == c.pass n kind) then c.pass n kind else none

/-- The common height is that of each kind. -/
theorem Category.pass_of_passAny {c : Category} {n m : Nat} {kinds : List Kind}
    (h : c.passAny n kinds = some m) : ∀ kind ∈ kinds, c.pass n kind = some m := by
  cases kinds with
  | nil => simp
  | cons kind kinds =>
    rw [passAny, Option.ite_none_right_eq_some] at h
    refine List.forall_mem_cons.2 ⟨h.2, fun k hk ↦ ?_⟩
    rw [beq_iff_eq.1 (List.all_eq_true.1 h.1 k hk), h.2]

/-- A leaf does the same above any base. -/
theorem Gauge.turn_of_pass {c : Category} {n m : Nat} {kind : Kind} (h : c.pass n kind = some m)
    (b : Nat) (ws : List Notice) : Gauge.turn c ⟨b + n, ws⟩ kind = ⟨b + m, ws⟩ := by
  cases hopens : c.opens kind with
  | true =>
    rw [Category.pass, if_pos hopens, Option.some.injEq] at h
    rw [turn, if_pos hopens, ← h]
    rfl
  | false =>
    rw [Category.pass, hopens, if_neg (by simp)] at h
    rw [turn, hopens, if_neg (by simp)]
    cases hcloses : c.closes kind with
    | true =>
      rw [if_pos hcloses, Option.ite_none_left_eq_some, Option.some.injEq] at h
      refine Gauge.ext (show b + n - 1 = b + m by omega) ?_
      rw [if_pos rfl, runOp, if_neg (show b + n ≠ 0 by omega), List.append_nil]
    | false =>
      rw [hcloses, if_neg (by simp), Option.some.injEq] at h
      rw [if_neg (by simp), h]

namespace Pattern

/-- The height above some base after what a pattern describes, if it is read at the height `n` right
inside a construct of the category `c`. It is given only if it is the same for everything that the
pattern describes, and no leaf drops below the base on the way. -/
def level : Pattern → Category → Nat → Option Nat
  | token kinds, c, n => c.passAny n kinds
  | stray, _, _ | strayEnd, _, _ => none
  | seq p q, c, n => (p.level c n).bind (q.level c)
  | alt p q, c, n => if p.level c n = q.level c n then p.level c n else none
  | opt p, c, n | many p, c, n => if p.level c n = some n then some n else none
  | node kind p, c, n =>
    if kind.category.ownsFrame then if p.level kind.category 0 = some 0 then some n else none
    else if kind = .recovered then none else p.level c n
  | nested nest, c, n =>
    if nest = .parserBlock ∧ c = .labeledAlternative then some n else none

/-- A sub-rule of a parser rule comes back to the height it starts at. -/
theorem level_block : Production.block.level .labeledAlternative 0 = some 0 := by decide +kernel

/-- **Patterns with a level** lead to it, from whatever base, and warn of nothing. The induction is
on derivations; a node with a frame comes back to where it started, as its content does. -/
theorem Derives.settleAll_of_level {s : Stream} {p : Pattern} {us : List Token} {ts : List Tree}
    (h : Derives p us ts) (hs : ∀ t ∈ us, s.get? t.index = some t) {c : Category} {n m : Nat}
    (hp : p.level c n = some m) (b : Nat) (ws : List Notice) :
    Tree.settleAll s c ts ⟨b + n, ws⟩ = ⟨b + m, ws⟩ := by
  induction h generalizing c n m b ws with
  | @token kinds t hk =>
    rw [Tree.settleAll_singleton, Tree.settle_leaf (hs t (by simp))]
    exact Gauge.turn_of_pass (Category.pass_of_passAny hp t.kind hk) b ws
  | stray | strayEnd => exact absurd hp (by simp [level])
  | seq _ _ ihp ihq =>
    obtain ⟨hus, hvs⟩ := List.forall_mem_append.1 hs
    obtain ⟨k, hp, hq⟩ := Option.bind_eq_some_iff.1 hp
    rw [Tree.settleAll_append, ihp hus hp, ihq hvs hq]
  | altLeft _ ih =>
    rw [level, Option.ite_none_right_eq_some] at hp
    exact ih hs hp.2 b ws
  | altRight _ ih =>
    rw [level, Option.ite_none_right_eq_some] at hp
    exact ih hs (hp.1 ▸ hp.2) b ws
  | optNone | manyNil =>
    rw [level, Option.ite_none_right_eq_some, Option.some.injEq] at hp
    rw [← hp.2]
    rfl
  | optSome _ ih =>
    rw [level, Option.ite_none_right_eq_some] at hp
    exact ih hs (hp.1.trans hp.2) b ws
  | manyCons _ _ ihp ihq =>
    obtain ⟨hus, hvs⟩ := List.forall_mem_append.1 hs
    have hround := hp
    rw [level, Option.ite_none_right_eq_some] at hround
    rw [Tree.settleAll_append, ihp hus hround.1, ihq hvs hp]
  | @node kind _ _ _ _ ih =>
    rw [Tree.settleAll_singleton]
    rw [level] at hp
    cases hown : kind.category.ownsFrame with
    | true =>
      rw [hown, if_pos rfl, Option.ite_none_right_eq_some, Option.some.injEq] at hp
      obtain ⟨hin, rfl⟩ := hp
      refine Tree.settle_node_of_depth (NodeKind.ne_recovered_of_ownsFrame hown) ?_ rfl
      rw [Category.within_of_ownsFrame hown]
      exact ih hs hin (b + n) ws
    | false =>
      rw [hown, if_neg (by simp), Option.ite_none_left_eq_some] at hp
      rw [Tree.settle_node_of_inherit hown hp.1]
      exact ih hs hp.2 b ws
  | nested _ ih =>
    rw [level, Option.ite_none_right_eq_some, Option.some.injEq] at hp
    obtain ⟨⟨rfl, rfl⟩, rfl⟩ := hp
    exact ih hs level_block (b + n) ws

/-! ### Lexer rules -/

/-- Whether a pattern, right inside a lexer rule, rises at colons and never falls: none of its own
tokens is a semicolon, and constructs in it hold no colons and come back to their height. -/
def rises : Pattern → Bool
  | token kinds => !kinds.contains .semi
  | stray | strayEnd => false
  | seq p q | alt p q => p.rises && q.rises
  | opt p | many p => p.rises
  | node kind p =>
    if kind.category.ownsFrame then
      p.level kind.category 0 = some 0 && p.holds (· != .colon)
    else kind != .recovered && p.rises
  | nested nest => nest == .lexerBlock

/-- Sub-rules of lexer rules rise at their colons, too. -/
theorem rises_lexerBlock : Production.lexerBlock.rises = true := by decide +kernel

/-- **Patterns that rise** do so by the number of their colons. -/
theorem Derives.settleAll_of_rises {s : Stream} {p : Pattern} {us : List Token} {ts : List Tree}
    (h : Derives p us ts) (hs : ∀ t ∈ us, s.get? t.index = some t) (hp : p.rises = true)
    (d : Nat) (ws : List Notice) :
    Tree.settleAll s .lexerRuleSpec ts ⟨d, ws⟩ = ⟨d + us.countP (·.kind == .colon), ws⟩ := by
  induction h generalizing d ws with
  | @token kinds t hk =>
    have hsemi : t.kind ≠ .semi := by
      rintro he
      rw [he] at hk
      simp [rises, hk] at hp
    rw [Tree.settleAll_singleton, Tree.settle_leaf (hs t (by simp)), Gauge.turn, Category.opens,
      Category.closes, List.countP_singleton]
    -- a colon goes deeper, and the only token that would go back is a semicolon
    by_cases hcolon : t.kind = .colon
    · rw [hcolon]
      rfl
    · simp [hcolon, hsemi]
  | stray | strayEnd => exact absurd hp (by simp [rises])
  | seq _ _ ihp ihq =>
    obtain ⟨hus, hvs⟩ := List.forall_mem_append.1 hs
    obtain ⟨hp, hq⟩ := Bool.and_eq_true_iff.1 hp
    rw [Tree.settleAll_append, ihp hus hp, ihq hvs hq, List.countP_append, Nat.add_assoc]
  | altLeft _ ih => exact ih hs (Bool.and_eq_true_iff.1 hp).1 d ws
  | altRight _ ih => exact ih hs (Bool.and_eq_true_iff.1 hp).2 d ws
  | optNone | manyNil => rfl
  | optSome _ ih => exact ih hs hp d ws
  | manyCons _ _ ihp ihq =>
    obtain ⟨hus, hvs⟩ := List.forall_mem_append.1 hs
    rw [Tree.settleAll_append, ihp hus hp, ihq hvs hp, List.countP_append, Nat.add_assoc]
  | @node kind p us _ hd ih =>
    rw [Tree.settleAll_singleton]
    rw [rises] at hp
    cases hown : kind.category.ownsFrame with
    | true =>
      rw [hown, if_pos rfl, Bool.and_eq_true_iff, decide_eq_true_iff] at hp
      -- a construct with a frame holds no colons and comes back to its height
      have hnone : us.countP (·.kind == .colon) = 0 := by
        refine List.countP_eq_zero.2 fun t ht hcolon ↦ ?_
        have hok := hd.forall_kind hp.2 t ht
        rw [beq_iff_eq.1 hcolon] at hok
        exact absurd hok (by decide)
      rw [hnone]
      refine Tree.settle_node_of_depth (NodeKind.ne_recovered_of_ownsFrame hown) ?_ rfl
      rw [Category.within_of_ownsFrame hown]
      exact hd.settleAll_of_level hs hp.1 d ws
    | false =>
      rw [hown, if_neg (by simp), Bool.and_eq_true_iff, bne_iff_ne] at hp
      rw [Tree.settle_node_of_inherit hown hp.1]
      exact ih hs hp.2 d ws
  | nested _ ih =>
    obtain rfl := beq_iff_eq.1 hp
    exact ih hs rises_lexerBlock d ws

/-- What comes last, and what comes before it. -/
theorem Derives.of_seqs_concat {p q : Pattern} {ps : List Pattern} {us : List Token}
    {ts : List Tree} (h : Derives (seqs p (ps ++ [q])) us ts) :
    ∃ vs ws ts₁ ts₂, us = vs ++ ws ∧ ts = ts₁ ++ ts₂ ∧ Derives (seqs p ps) vs ts₁ ∧
      Derives q ws ts₂ := by
  induction ps generalizing p us ts with
  | nil => exact h.of_seq
  | cons p' ps ih =>
    obtain ⟨us₁, us₂, ts₁, ts₂, rfl, rfl, hp, hrest⟩ := Derives.of_seq h
    obtain ⟨vs, ws, ts₃, ts₄, rfl, rfl, hfront, hlast⟩ := ih hrest
    exact ⟨us₁ ++ vs, ws, ts₁ ++ ts₃, ts₄, (List.append_assoc ..).symm,
      (List.append_assoc ..).symm, .seq hp hfront, hlast⟩

/-- A lexer rule has a semicolon at its end, and a colon before it. -/
theorem Derives.of_lexerRuleSpec {us : List Token} {ts : List Tree}
    (h : Derives Production.lexerRuleSpec us ts) :
    ∃ p front e ts', us = front ++ [e] ∧ e.kind = .semi ∧
      ts = [Tree.ofChildren .lexerRuleSpec (ts' ++ [.leaf e.index])] ∧ Derives p front ts' ∧
      p.rises = true ∧ 0 < front.countP (·.kind == .colon) := by
  obtain ⟨_, rfl, hbody⟩ := Derives.of_node h
  have hbody : Derives (seqs (.opt (tok .docComment))
      ([.opt (tok .kwFragment), tok .tokenRef, .opt Production.optionsSpec, tok .colon,
        .node .lexerRuleBlock Production.lexerAltList] ++ [tok .semi])) us _ := hbody
  obtain ⟨front, _, ts', _, rfl, rfl, hfront, hlast⟩ := hbody.of_seqs_concat
  obtain ⟨e, he, rfl, rfl⟩ := hlast.of_tok
  refine ⟨_, front, e, ts', rfl, he, rfl, hfront, by decide +kernel, ?_⟩
  have hfront : Derives (seqs (.opt (tok .docComment))
      ([.opt (tok .kwFragment), tok .tokenRef, .opt Production.optionsSpec, tok .colon] ++
        [.node .lexerRuleBlock Production.lexerAltList])) front _ := hfront
  obtain ⟨head, _, _, _, rfl, -, hhead, -⟩ := hfront.of_seqs_concat
  have hhead : Derives (seqs (.opt (tok .docComment))
      ([.opt (tok .kwFragment), tok .tokenRef, .opt Production.optionsSpec] ++ [tok .colon]))
      head _ := hhead
  obtain ⟨_, _, _, _, rfl, -, -, hcolon⟩ := hhead.of_seqs_concat
  obtain ⟨k, hk, rfl, -⟩ := hcolon.of_tok
  exact List.countP_pos_iff.2 ⟨k, by simp, by simp [hk]⟩

/-- **A lexer rule drifts** by its colons beyond the first one: every colon goes one level deeper,
and the semicolon takes only one level back. -/
theorem Derives.settleAll_lexerRuleSpec {s : Stream} {us : List Token} {ts : List Tree}
    (h : Derives Production.lexerRuleSpec us ts) (hs : ∀ t ∈ us, s.get? t.index = some t)
    (c : Category) (d : Nat) (ws : List Notice) :
    Tree.settleAll s c ts ⟨d, ws⟩ = ⟨d, ws ++ if us.countP (·.kind == .colon) - 1 = 0 then []
      else [.drifted d (d + (us.countP (·.kind == .colon) - 1))]⟩ := by
  obtain ⟨p, front, e, ts', rfl, he, rfl, hfront, hrises, hpos⟩ := h.of_lexerRuleSpec
  obtain ⟨hfs, hes⟩ := List.forall_mem_append.1 hs
  obtain ⟨k, hk⟩ := Nat.exists_eq_succ_of_ne_zero (Nat.ne_of_gt hpos)
  have hcount : (front ++ [e]).countP (·.kind == .colon) - 1 = k := by simp [he, hk]
  have hpass : Category.lexerRuleSpec.pass (k + 1) e.kind = some k := by
    rw [he]
    rfl
  have hin : Tree.settleAll s .lexerRuleSpec (ts' ++ [.leaf e.index]) ⟨d, ws⟩ = ⟨d + k, ws⟩ := by
    rw [Tree.settleAll_append, hfront.settleAll_of_rises hfs hrises, Tree.settleAll_singleton,
      Tree.settle_leaf (hes e (by simp)), hk, Gauge.turn_of_pass hpass]
  have hsettle : (Tree.ofChildren .lexerRuleSpec (ts' ++ [.leaf e.index])).settle s c ⟨d, ws⟩ =
      (Tree.settleAll s .lexerRuleSpec (ts' ++ [.leaf e.index]) ⟨d, ws⟩).restore d := rfl
  rw [hcount, Tree.settleAll_singleton, hsettle, hin, Gauge.restore]
  simp

/-! ### Whole grammars -/

end Pattern

/-- The colons among the tokens of a node beyond the first one. -/
def Node.excess (s : Stream) (n : Node) : Nat :=
  (Tree.leavesAll n.children).countP (fun i ↦ (s.get? i).any (·.kind == .colon)) - 1

/-- What is warned of about lexer rules at depth zero: those that drift. -/
def driftsOf (s : Stream) (ns : List Node) : List Notice :=
  (ns.filter (·.kind == .lexerRuleSpec)).flatMap fun n ↦
    if n.excess s = 0 then [] else [.drifted 0 (n.excess s)]

theorem driftsOf_append (s : Stream) (ns ns' : List Node) :
    driftsOf s (ns ++ ns') = driftsOf s ns ++ driftsOf s ns' := by
  rw [driftsOf, List.filter_append, List.flatMap_append]
  rfl

theorem driftsOf_of_ne {s : Stream} {ns : List Node} (h : ∀ n ∈ ns, n.kind ≠ .lexerRuleSpec) :
    driftsOf s ns = [] := by
  rw [driftsOf, List.filter_eq_nil_iff.2 fun n hn ↦ by simpa using h n hn, List.flatMap_nil]

theorem driftsOf_cons_of_ne {s : Stream} {n : Node} (ns : List Node)
    (h : n.kind ≠ .lexerRuleSpec) : driftsOf s (n :: ns) = driftsOf s ns := by
  rw [driftsOf, List.filter_cons_of_neg (by simpa using h)]
  rfl

theorem driftsOf_cons_of_eq {s : Stream} {n : Node} (ns : List Node)
    (h : n.kind = .lexerRuleSpec) : driftsOf s (n :: ns) =
      (if n.excess s = 0 then [] else [.drifted 0 (n.excess s)]) ++ driftsOf s ns := by
  rw [driftsOf, List.filter_cons_of_pos (by simpa using h), List.flatMap_cons]
  rfl

/-- Over tokens of the stream, colons are counted among the tokens. -/
theorem Over.excess_eq {s : Stream} {us : List Token} {ts : List Tree} (h : Over us ts)
    (hs : ∀ t ∈ us, s.get? t.index = some t) (kind : NodeKind) (span : Option Span) :
    Node.excess s ⟨kind, span, ts⟩ = us.countP (·.kind == .colon) - 1 := by
  rw [Node.excess, h.leavesAll_eq, List.countP_map]
  refine congrArg (· - 1) (List.countP_congr fun t ht ↦ ?_)
  simp [hs t ht]

namespace Pattern

/-- Whether a pattern that is read at depth zero ends there, with no warnings but those about the
lexer rules in it. -/
def carries : Pattern → Category → Bool
  | token kinds, c => c.passAny 0 kinds == some 0
  | stray, _ | strayEnd, _ | nested _, _ => false
  | seq p q, c | alt p q, c => p.carries c && q.carries c
  | opt p, c | many p, c => p.carries c
  | node kind p, c =>
    kind != .recovered && (node kind p == Production.lexerRuleSpec ||
      (node kind p).level c 0 == some 0 && (node kind p).formsNo .lexerRuleSpec ||
      kind != .lexerRuleSpec && p.carries (kind.category.within c))

/-- Grammars pass the check, once their recovered regions are left out. -/
theorem carries_grammarSpec : Production.grammarSpec.strict.carries .other = true := by
  decide +kernel

/-- A lexer rule at depth zero is warned of if it drifts. -/
theorem Derives.drifts_lexerRuleSpec {s : Stream} {us : List Token} {ts : List Tree}
    (h : Derives Production.lexerRuleSpec us ts) (hs : ∀ t ∈ us, s.get? t.index = some t)
    (c : Category) (ws : List Notice) :
    Tree.settleAll s c ts ⟨0, ws⟩ = ⟨0, ws ++ driftsOf s (Tree.nodesAll ts)⟩ := by
  rw [h.settleAll_lexerRuleSpec hs]
  obtain ⟨ts', rfl, hbody⟩ := Derives.of_node h
  have hinner : ∀ n ∈ Tree.nodesAll ts', n.kind ≠ .lexerRuleSpec :=
    hbody.kind_ne_of_formsNo (formsNo_ofNest (by decide)) (by decide +kernel)
  have hexcess := hbody.over.excess_eq hs .lexerRuleSpec (Tree.spanOf? ts')
  rw [Tree.nodesAll_ofChildren, driftsOf_cons_of_eq _ rfl, driftsOf_of_ne hinner, List.append_nil,
    hexcess, Nat.zero_add]

/-- **Grammars end at depth zero**, and only lexer rules that drift are warned of. -/
theorem Derives.settleAll_of_carries {s : Stream} {p : Pattern} {us : List Token} {ts : List Tree}
    (h : Derives p us ts) (hs : ∀ t ∈ us, s.get? t.index = some t) {c : Category}
    (hp : p.carries c = true) (ws : List Notice) :
    Tree.settleAll s c ts ⟨0, ws⟩ = ⟨0, ws ++ driftsOf s (Tree.nodesAll ts)⟩ := by
  induction h generalizing c ws with
  | @token kinds t hk =>
    have hpass := Category.pass_of_passAny (beq_iff_eq.1 hp) t.kind hk
    rw [Tree.settleAll_singleton, Tree.settle_leaf (hs t (by simp))]
    simpa [driftsOf, Tree.nodesAll, Tree.nodes] using Gauge.turn_of_pass hpass 0 ws
  | stray | strayEnd | nested => exact absurd hp (by simp [carries])
  | seq _ _ ihp ihq =>
    obtain ⟨hus, hvs⟩ := List.forall_mem_append.1 hs
    obtain ⟨hp, hq⟩ := Bool.and_eq_true_iff.1 hp
    rw [Tree.settleAll_append, ihp hus hp, ihq hvs hq, Tree.nodesAll_append, driftsOf_append,
      List.append_assoc]
  | altLeft _ ih => exact ih hs (Bool.and_eq_true_iff.1 hp).1 ws
  | altRight _ ih => exact ih hs (Bool.and_eq_true_iff.1 hp).2 ws
  | optNone | manyNil => simp [Tree.settleAll, Tree.nodesAll, driftsOf]
  | optSome _ ih => exact ih hs hp ws
  | manyCons _ _ ihp ihq =>
    obtain ⟨hus, hvs⟩ := List.forall_mem_append.1 hs
    rw [Tree.settleAll_append, ihp hus hp, ihq hvs hp, Tree.nodesAll_append, driftsOf_append,
      List.append_assoc]
  | @node kind p us ts hd ih =>
    obtain ⟨hk, hp⟩ := Bool.and_eq_true_iff.1 hp
    have hnode : Derives (.node kind p) us [Tree.ofChildren kind ts] := .node hd
    rcases Bool.or_eq_true_iff.1 hp with hp | hp
    · rcases Bool.or_eq_true_iff.1 hp with hp | hp
      · rw [beq_iff_eq.1 hp] at hnode
        exact hnode.drifts_lexerRuleSpec hs c ws
      · obtain ⟨hlevel, hno⟩ := Bool.and_eq_true_iff.1 hp
        have hkinds := hnode.kind_ne_of_formsNo (formsNo_ofNest (by decide)) hno
        rw [driftsOf_of_ne hkinds, List.append_nil]
        exact hnode.settleAll_of_level hs (beq_iff_eq.1 hlevel) 0 ws
    · obtain ⟨hne, hp⟩ := Bool.and_eq_true_iff.1 hp
      have hdrifts : driftsOf s (Tree.nodesAll [Tree.ofChildren kind ts]) =
          driftsOf s (Tree.nodesAll ts) := by
        rw [Tree.nodesAll_ofChildren, driftsOf_cons_of_ne _ (bne_iff_ne.1 hne)]
      rw [Tree.settleAll_singleton, hdrifts]
      exact Tree.settle_node_of_depth (bne_iff_ne.1 hk) (ih hs hp ws) rfl

end Pattern

/-- **Only lexer rules drift.** Where nothing is reported about a source, its layout warns of those
lexer rules that have more than one colon, in the order of the tree, and of nothing else. Each of
them drifts by its colons beyond the first. -/
theorem warnings_eq_of_no_diagnostics {r : Rules} {source : String} {out : Formatted}
    (h : format r source = .ok out) (hd : out.diagnostics = []) :
    ∃ tree, parse (tokenize source) = .ok tree ∧
      out.notices.filter (·.isWarning) = (tree.findAll .lexerRuleSpec).flatMap fun n ↦
        if n.excess (tokenize source) = 0 then []
        else [.drifted 0 (n.excess (tokenize source))] := by
  obtain ⟨tree, hp, rfl⟩ := format_eq_ok_iff.1 h
  refine ⟨tree, hp, ?_⟩
  have hderives := (derives_of_parse hp).strict (clean_of_diagnostics hd)
  have htokens : ∀ t ∈ (tokenize source).mainTokens, (tokenize source).get? t.index = some t :=
    fun t ht ↦ Stream.get?_of_mem (List.mem_of_mem_filter ht)
  have hgauge : (Formatter.ofTree r (tokenize source) tree).gauge =
      ⟨0, driftsOf (tokenize source) tree.nodes⟩ := by
    have hsettle := hderives.settleAll_of_carries htokens Pattern.carries_grammarSpec []
    rw [Tree.nodesAll_singleton] at hsettle
    exact (Formatter.gauge_run tree rfl).trans hsettle
  have hdepth : (Formatter.ofTree r (tokenize source) tree).indent.depth = 0 :=
    congrArg Gauge.depth hgauge
  rw [Formatter.formatted, Formatter.allNotices, hdepth, if_pos rfl, List.append_nil]
  exact congrArg Gauge.warnings hgauge

/-- A lexer rule with options in two sub-rules, one inside the other. -/
theorem nested_options_drift_twice :
    ∃ source out tree, source = "lexer grammar L;\nA : ( options \x7b a = b; \x7d : " ++
        "( options \x7b c = d; \x7d : 'x' ) ) ;" ∧
      format Rules.standard source = .ok out ∧ out.diagnostics = [] ∧
      parse (tokenize source) = .ok tree ∧
      out.notices.filter (·.isWarning) = [.drifted 0 2] ∧
      (tree.findAll .lexerRuleSpec).flatMap (fun n ↦
        if n.excess (tokenize source) = 0 then []
        else [Notice.drifted 0 (n.excess (tokenize source))]) = [.drifted 0 2] := by
  have ht : formatsTo Rules.standard ("lexer grammar L;\nA : ( options \x7b a = b; \x7d : " ++
        "( options \x7b c = d; \x7d : 'x' ) ) ;")
      (fun out ↦ out.diagnostics = [] ∧ out.notices.filter (·.isWarning) = [.drifted 0 2]) =
        true := by
    decide +kernel
  obtain ⟨out, hf, htest⟩ := exists_of_formatsTo ht
  obtain ⟨hd, hw⟩ := of_decide_eq_true htest
  obtain ⟨tree, hp, hall⟩ := warnings_eq_of_no_diagnostics hf hd
  exact ⟨_, out, tree, rfl, hf, hd, hp, hw, hall.symm.trans hw⟩

/-- A lexer rule in which everything could be read, and which drifts: its sub-rule has options. -/
theorem optioned_sub_rule_drifts :
    ∃ out, format Rules.standard "lexer grammar L;\nA : ( options \x7b a = b; \x7d : 'x' ) ;" =
        .ok out ∧
      out.diagnostics = [] ∧ out.notices.filter (·.isWarning) = [.drifted 0 1] := by
  have ht : formatsTo Rules.standard "lexer grammar L;\nA : ( options \x7b a = b; \x7d : 'x' ) ;"
      (fun out ↦ out.diagnostics = [] ∧ out.notices.filter (·.isWarning) = [.drifted 0 1]) =
        true := by
    decide +kernel
  obtain ⟨out, hf, htest⟩ := exists_of_formatsTo ht
  exact ⟨out, hf, of_decide_eq_true htest⟩

end GrammarLayout
