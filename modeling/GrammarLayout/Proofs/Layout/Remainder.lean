import GrammarLayout.Proofs.Grammar.Coverage
import GrammarLayout.Proofs.Grammar.Parts
import GrammarLayout.Proofs.Grammar.Renumbering
import GrammarLayout.Proofs.Layout.Completion

/-!
# What remains of a walk

From a rule or a mode on, what is left of the walk over a grammar is told by the tokens that are
left (`Remainder`). Positions are in the trees but not in the beats, and the reader looks at kinds
only. So the beats that remain are the same for any two streams whose tokens are, from there on, the
same with the same comments after them (`Remainder.unique`), and `map_beat_of_coming` says when that
is so.

There are two steps. Beats are the events of a walk without positions: each token with the comments
after it, and each node with whether it covers any token. Trees of one shape have the same beats if
their tokens have (`Over.beatsAll_eq`); and tokens of the same kinds are read as trees of one shape,
which is what renumbering shows. Together they say that what is read off a list of tokens has beats
that depend on the beats of the tokens (`Pattern.beats_of_parse`).

The rest of a grammar is then given as a relation between the tokens that are left and the beats
that are to come, with one constructor for each place from which the layouts are compared: a mode,
and a rule of the rules before the modes.
-/

namespace GrammarLayout

/-! ### Beats of events -/

/-- The beat of an event of a walk: the positions in it are forgotten. -/
def Stream.beatOf (s : Stream) : Event → Beat
  | .enter kind span => .enter kind span.isSome
  | .leave kind span => .leave kind span.isSome
  | .token t | .stray t => s.beat t

mutual

theorem Tree.beats_eq_map (s : Stream) : ∀ t : Tree, t.beats s = (t.events s).map s.beatOf
  | .leaf i | .stray i => by
    rw [beats, events]
    cases s.get? i <;> rfl
  | .node kind span children => by
    rw [beats, events, Tree.beatsAll_eq_map s children, List.map_cons, List.map_append]
    rfl

theorem Tree.beatsAll_eq_map (s : Stream) :
    ∀ ts : List Tree, beatsAll s ts = (eventsAll s ts).map s.beatOf
  | [] => rfl
  | t :: ts => by
    rw [beatsAll, eventsAll, List.map_append, Tree.beats_eq_map s t, Tree.beatsAll_eq_map s ts]

end

/-- Beats of trees side by side. -/
theorem Tree.beatsAll_append (s : Stream) (ts ts' : List Tree) :
    beatsAll s (ts ++ ts') = beatsAll s ts ++ beatsAll s ts' := by
  rw [beatsAll_eq_map, beatsAll_eq_map, beatsAll_eq_map, eventsAll_append, List.map_append]

/-- A node over some token is left with the comments after it. Only nodes over nothing are left
without. -/
theorem Over.beats_ofChildren {s : Stream} {us : List Token} {ts : List Tree} (h : Over us ts)
    (hne : us ≠ []) (kind : NodeKind) :
    (Tree.ofChildren kind ts).beats s =
      s.beatOf (.enter kind (Tree.spanOf? ts)) :: (Tree.beatsAll s ts ++ [.leave kind true]) := by
  have hspan : (Tree.spanOf? ts).isSome = true := by simp [h.isSome_spanOf?, hne]
  rw [Tree.ofChildren, Tree.beats, Stream.beatOf, hspan]

/-! ### Trees of the same shape -/

mutual

theorem Tree.leaves_renumber (g : Nat → Nat) : ∀ t : Tree, (t.renumber g).leaves = t.leaves.map g
  | .leaf _ | .stray _ => rfl
  | .node kind span children => by rw [renumber, leaves, leaves, Tree.leavesAll_renumber g children]

theorem Tree.leavesAll_renumber (g : Nat → Nat) :
    ∀ ts : List Tree, leavesAll (renumberAll g ts) = (leavesAll ts).map g
  | [] => rfl
  | t :: ts => by
    rw [renumberAll, leavesAll, leavesAll, List.map_append, Tree.leaves_renumber g t,
      Tree.leavesAll_renumber g ts]

end

namespace Over

variable {g : Nat → Nat} {us us' : List Token} {ts ts' : List Tree}

/-- Trees of the same shape stand over equally many tokens, one for each leaf. -/
theorem length_eq (h : Over us ts) (h' : Over us' ts')
    (hr : ts'.map (Tree.renumber g) = ts.map (Tree.renumber g)) : us'.length = us.length := by
  have hlen : ∀ {us : List Token} {ts : List Tree}, Over us ts →
      us.length = (Tree.leavesAll (ts.map (Tree.renumber g))).length := by
    intro us ts h
    rw [← Tree.renumberAll_eq_map, Tree.leavesAll_renumber, h.leavesAll_eq, List.length_map,
      List.length_map]
  rw [hlen h, hlen h', hr]

/-- **Trees of the same shape have the same beats**, over tokens that have the same. -/
theorem beatsAll_eq {s s' : Stream} (h : Over us ts) (h' : Over us' ts')
    (hr : ts'.map (Tree.renumber g) = ts.map (Tree.renumber g))
    (hb : us'.map s'.beat = us.map s.beat) (hus : ∀ t ∈ us, t ∈ s.toList)
    (hus' : ∀ t ∈ us', t ∈ s'.toList) : Tree.beatsAll s' ts' = Tree.beatsAll s ts := by
  induction h generalizing us' ts' with
  | nil =>
    obtain rfl := List.map_eq_nil_iff.1 hr
    rfl
  | @leaf t us ts _ ih =>
    cases h' with
    | nil => exact absurd hr (by simp)
    | @leaf t' us' ts' h' =>
      obtain ⟨ht, hb⟩ := List.cons.inj hb
      rw [List.forall_mem_cons] at hus hus'
      rw [Tree.beatsAll, Tree.beatsAll, ih h' (List.cons.inj hr).2 hb hus.2 hus'.2, Tree.beats,
        Tree.beats, Stream.get?_of_mem hus.1, Stream.get?_of_mem hus'.1]
      simp [ht]
    | stray | node => exact absurd (List.cons.inj hr).1 (by simp [Tree.renumber, Tree.ofChildren])
  | @stray t us ts _ ih =>
    cases h' with
    | nil => exact absurd hr (by simp)
    | @stray t' us' ts' h' =>
      obtain ⟨ht, hb⟩ := List.cons.inj hb
      rw [List.forall_mem_cons] at hus hus'
      rw [Tree.beatsAll, Tree.beatsAll, ih h' (List.cons.inj hr).2 hb hus.2 hus'.2, Tree.beats,
        Tree.beats, Stream.get?_of_mem hus.1, Stream.get?_of_mem hus'.1]
      simp [ht]
    | leaf | node => exact absurd (List.cons.inj hr).1 (by simp [Tree.renumber, Tree.ofChildren])
  | @node kind us vs ts tsv hu _ ihu ihv =>
    cases h' with
    | nil => exact absurd hr (by simp)
    | leaf | stray => exact absurd (List.cons.inj hr).1 (by simp [Tree.renumber, Tree.ofChildren])
    | @node kind' us' vs' ts' tsv' hu' hv' =>
      obtain ⟨hnode, hrest⟩ := List.cons.inj hr
      rw [Tree.renumber_ofChildren, Tree.renumber_ofChildren, Tree.ofChildren, Tree.ofChildren]
        at hnode
      obtain ⟨rfl, -, hchildren⟩ := Tree.node.inj hnode
      -- the two nodes stand over equally many tokens, so the beats can be split there
      have hlen := hu.length_eq hu' hchildren
      rw [List.map_append, List.map_append] at hb
      obtain ⟨hbu, hbv⟩ := List.append_inj hb (by rw [List.length_map, List.length_map, hlen])
      rw [List.forall_mem_append] at hus hus'
      have hempty : us'.isEmpty = us.isEmpty := by
        rw [Bool.eq_iff_iff, List.isEmpty_iff_length_eq_zero, List.isEmpty_iff_length_eq_zero, hlen]
      rw [Tree.beatsAll, Tree.beatsAll, ihv hv' hrest hbv hus.2 hus'.2, Tree.ofChildren,
        Tree.ofChildren, Tree.beats, Tree.beats, ihu hu' hchildren hbu hus.1 hus'.1,
        hu.isSome_spanOf?, hu'.isSome_spanOf?, hempty]

end Over

/-! ### Tokens that are read alike -/

/-- **What is read off tokens with the same beats has the same beats**, and so has what is left. -/
theorem Pattern.beats_of_parse {s s' : Stream} {p : Pattern} {us us' vs vs' : List Token}
    {ts ts' : List Tree} (h : p.parse us = some (ts, vs)) (h' : p.parse us' = some (ts', vs'))
    (hb : us'.map s'.beat = us.map s.beat) (hus : ∀ t ∈ us, t ∈ s.toList)
    (hus' : ∀ t ∈ us', t ∈ s'.toList) :
    Tree.beatsAll s' ts' = Tree.beatsAll s ts ∧ vs'.map s'.beat = vs.map s.beat := by
  -- tokens without anything but their kinds
  let φ : Token → Token := fun t ↦ Token.synthetic t.kind "" 0
  have hφ : Renumbers (fun _ ↦ 0) φ := ⟨fun _ ↦ rfl, fun _ ↦ rfl⟩
  have hkinds : us'.map φ = us.map φ := by
    let ψ : Beat → Token
      | .leaf c _ => Token.synthetic c.kind "" 0
      | _ => Token.synthetic .eof "" 0
    have hψ : ∀ (s : Stream) (us : List Token), us.map φ = (us.map s.beat).map ψ := by
      intro s us
      rw [List.map_map]
      rfl
    rw [hψ s', hψ s, hb]
  have hlen : us'.length = us.length := by
    simpa using congrArg List.length hb
  have hread : Natural (fun _ ↦ 0) φ (p.read us.length (Nest.read us.length us.length)) :=
    natural_read hφ (natural_readNest hφ _ _) p
  have hx := hread us
  have hx' := hread us'
  rw [parse] at h h'
  rw [hlen] at h'
  rw [h] at hx
  rw [h', hkinds, hx] at hx'
  obtain ⟨hts, hvs⟩ := Prod.mk.inj (Option.some.inj hx')
  obtain ⟨as, rfl, hd⟩ := finds_read (finds_readNest _ _) p h
  obtain ⟨as', rfl, hd'⟩ := finds_read (finds_readNest _ _) p h'
  have hvl : vs'.length = vs.length := by simpa using (congrArg List.length hvs).symm
  rw [List.map_append, List.map_append] at hb
  obtain ⟨hba, hbv⟩ := List.append_inj' hb (by rw [List.length_map, List.length_map, hvl])
  rw [List.forall_mem_append] at hus hus'
  exact ⟨hd.over.beatsAll_eq hd'.over hts.symm hba hus.1 hus'.1, hbv⟩

/-! ### The rest of a grammar -/

open Pattern Production in
/-- The beats of a walk over a grammar from a rule or a mode on, `us` being the main tokens from
there on. -/
inductive Remainder (s : Stream) : NodeKind → List Token → List Beat → Prop
  /-- From a mode on: modes and the end marker, in the node of the grammar. -/
  | modes {us vs : List Token} {M E : List Tree} (hM : (many modeSpec).parse us = some (M, vs))
      (hE : (tok .eof).parse vs = some (E, [])) :
      Remainder s .modeSpec us
        (Tree.beatsAll s M ++ (Tree.beatsAll s E ++ [.leave .grammarSpec true]))
  /-- From a rule on: rules in their node, and what comes after them. -/
  | rules {us vs : List Token} {R : List Tree} {beats : List Beat}
      (hR : (many anyRule).parse us = some (R, vs)) (h : Remainder s .modeSpec vs beats) :
      Remainder s .ruleSpec us (Tree.beatsAll s R ++ .leave .rules true :: beats)

/-- **What remains is determined by the tokens that are left**, each with the comments after it. Of
the two walks nothing is used but that both are at a rule, or both at a mode. -/
theorem Remainder.unique {s s' : Stream} {kind : NodeKind} {us us' : List Token}
    {beats beats' : List Beat} (h : Remainder s kind us beats) (h' : Remainder s' kind us' beats')
    (hb : us'.map s'.beat = us.map s.beat) (hus : ∀ t ∈ us, t ∈ s.toList)
    (hus' : ∀ t ∈ us', t ∈ s'.toList) : beats' = beats := by
  have hleft : ∀ {s : Stream} {p : Pattern} {us vs : List Token} {ts : List Tree},
      p.parse us = some (ts, vs) → (∀ t ∈ us, t ∈ s.toList) → ∀ t ∈ vs, t ∈ s.toList := by
    intro s p us vs ts h hus
    obtain ⟨as, rfl, -⟩ := Pattern.finds_parse p h
    exact (List.forall_mem_append.1 hus).2
  induction h generalizing us' beats' with
  | modes hM hE =>
    cases h' with
    | modes hM' hE' =>
      obtain ⟨hbM, hv⟩ := Pattern.beats_of_parse hM hM' hb hus hus'
      obtain ⟨hbE, -⟩ := Pattern.beats_of_parse hE hE' hv (hleft hM hus) (hleft hM' hus')
      rw [hbM, hbE]
  | rules hR _ ih =>
    cases h' with
    | rules hR' h' =>
      obtain ⟨hbR, hv⟩ := Pattern.beats_of_parse hR hR' hb hus hus'
      rw [hbR, ih h' hv (hleft hR hus) (hleft hR' hus')]

/-! ### Tokens with the same comments after them -/

/-- Comments come before the tokens, so the two can be told apart in the list of what comes. -/
theorem Stream.takeWhile_coming (s : Stream) (run : List Token) {us : List Token}
    (hu : ∀ t ∈ us, t.isHidden = false) :
    (commentsOf run ++ s.coming us).takeWhile (·.kind.isHidden) = commentsOf run ∧
      (commentsOf run ++ s.coming us).dropWhile (·.kind.isHidden) = s.coming us := by
  have hhead : (s.coming us).takeWhile (·.kind.isHidden) = [] ∧
      (s.coming us).dropWhile (·.kind.isHidden) = s.coming us := by
    cases us with
    | nil => exact ⟨rfl, rfl⟩
    | cons t us =>
      have ht : t.segment.kind.isHidden = false := hu t List.mem_cons_self
      rw [coming_cons]
      exact ⟨List.takeWhile_cons_of_neg (by simp [ht]), List.dropWhile_cons_of_neg (by simp [ht])⟩
  rw [List.takeWhile_append_of_pos isHidden_of_mem_commentsOf,
    List.dropWhile_append_of_pos isHidden_of_mem_commentsOf, hhead.1, hhead.2]
  exact ⟨List.append_nil _, rfl⟩

/-- **Tokens with which the same segments come have the same beats.** A main segment ends the
comments of the token before it, so each token gets its own comments back. -/
theorem map_beat_of_coming {s s' : Stream} {us us' : List Token}
    (h : s'.coming us' = s.coming us) (hu : ∀ t ∈ us, t.isHidden = false)
    (hu' : ∀ t ∈ us', t.isHidden = false) : us'.map s'.beat = us.map s.beat := by
  induction us generalizing us' with
  | nil =>
    cases us' with
    | nil => rfl
    | cons => exact absurd h (by simp)
  | cons t us ih =>
    cases us' with
    | nil => exact absurd h (by simp)
    | cons t' us' =>
      rw [Stream.coming_cons, Stream.coming_cons] at h
      obtain ⟨ht, hrest⟩ := List.cons.inj h
      rw [List.forall_mem_cons] at hu hu'
      obtain ⟨htake, hdrop⟩ := s.takeWhile_coming (s.hiddenAfter t.index) hu.2
      obtain ⟨htake', hdrop'⟩ := s'.takeWhile_coming (s'.hiddenAfter t'.index) hu'.2
      rw [hrest] at htake' hdrop'
      rw [List.map_cons, List.map_cons, ih (hdrop'.symm.trans hdrop) hu.2 hu'.2, Stream.beat,
        Stream.beat, ht, htake'.symm.trans htake]

end GrammarLayout
