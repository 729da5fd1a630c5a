import GrammarLayout.Proofs.Layout.Beside
import GrammarLayout.Proofs.Layout.Muted
import GrammarLayout.Proofs.Layout.Remainder

/-!
# What stands above a rule

The text above a rule or a mode has no influence on the layout below it (`rendered_below_eq`). The
formatter carries much from one node to the next: a depth, a stack of frames, a pending break, the
text before, and three marks. When a rule or a mode is entered, none of it is left over:

* The walk is right inside the grammar, where every construct has put back what it changed. So the
  depth is zero and the one frame is that of the grammar (`Formatter.AtMargin`).
* Something has been written, at least the semicolon of the header. So the new line with which the
  frame is pushed is not dropped, and it settles what was pending.
* The comments before the node are written before its frame is pushed, and none of those after its
  first token has been given out, wherever the marks stand. That is what `Follows` says.

So the pages of two sources are beside each other there, and what remains of their walks is the
same. Nothing is asked of the rules: a comment that they do not know is muted first.

The moment that is compared is the one after the comments before the node are written and before its
frame is pushed (`Formatter.approach`). Up to there everything may differ: texts, comments, rules
that cannot be read, even the number of tokens. From there on three things tell the text, and the
theorems follow this order: where the formatter stands (`exists_follows_of_stands`), which page it
shows (`exists_shows_of_enter`), and which beats remain (`exists_below`, by `Remainder.unique`).
-/

namespace GrammarLayout

open Pattern

/-! ### The margin -/

/-- A formatter right inside the grammar: nothing is indented, and something is written. -/
structure Formatter.AtMargin (f : Formatter) : Prop where
  /-- The one frame is that of the grammar. -/
  frames : f.frames = [{ category := .grammarSpec, savedIndent := 0 }]
  /-- Nothing is indented. -/
  depth : f.indent.depth = 0
  /-- Something is written. -/
  started : f.writer.started = true

namespace Formatter

variable {s : Stream} {f f' : Formatter}

theorem AtMargin.keeps (h : f.AtMargin) (hk : Keeps f f') : f'.AtMargin :=
  ⟨hk.frames.trans h.frames, hk.depth.trans h.depth, hk.started h.started⟩

theorem AtMargin.active (h : f.AtMargin) : f.frames.active = .grammarSpec := by
  rw [h.frames]
  rfl

/-- The header ends with a semicolon, which is written. So even a grammar of which nothing else
could be read has something on the page before its rules. -/
theorem started_run_grammarDecl {us : List Token} {ts : List Tree}
    (h : Derives Production.grammarDecl us ts)
    (hus : ∀ t ∈ us, t ∈ s.toList ∧ t.text ≠ "") (ha : f.frames.active = .grammarSpec) :
    (f.run (Tree.eventsAll s ts)).writer.started = true := by
  obtain ⟨ts, rfl, hbody⟩ := Derives.of_node h
  obtain ⟨us₁, _, ts₁, _, rfl, rfl, -, hrest⟩ := hbody.of_seq
  obtain ⟨us₂, _, ts₂, _, rfl, rfl, -, hsemi⟩ := hrest.of_seq
  obtain ⟨t, hk, rfl, rfl⟩ := Derives.of_tok hsemi
  obtain ⟨ht, htext⟩ := hus t (by simp)
  have hleaf : Tree.eventsAll s [.leaf t.index] = [.token t] := by
    simp [Tree.eventsAll, Tree.events, Stream.get?_of_mem ht]
  rw [Tree.eventsAll, Tree.eventsAll, List.append_nil, Tree.ofChildren, run_node]
  refine (keeps_leave _ rfl _).started ?_
  have henter : Keeps f (f.enter .grammarDecl
      (Tree.spanOf? (ts₁ ++ (ts₂ ++ [.leaf t.index])))) := keeps_enter f rfl _
  generalize f.enter .grammarDecl _ = g at henter
  have hg : g.frames.active = .grammarSpec := by rw [henter.frames, ha]
  have h₁ := keeps_runAll s ts₁ hg
  have h₂ := keeps_runAll s ts₂ (h₁.frames ▸ hg)
  rw [Tree.eventsAll_append, Tree.eventsAll_append, hleaf, Follows.run_append, Follows.run_append]
  exact (keeps_started_leaf (by rw [h₂.frames, h₁.frames, hg]) (by rw [hk]; decide)).2 htext

/-- **After what stands before the rules**, a formatter is right inside the grammar. -/
theorem atMargin_run_prelude {us : List Token} {ts : List Tree}
    (h : Derives Production.prelude us ts) (hus : ∀ t ∈ us, t ∈ s.toList ∧ t.text ≠ "")
    (hf : f.frames = [{ category := .grammarSpec, savedIndent := 0 }]) (hd : f.indent.depth = 0) :
    (f.run (Tree.eventsAll s ts)).AtMargin := by
  have ha : f.frames.active = .grammarSpec := by rw [hf]; rfl
  obtain ⟨_, _, ts₁, _, rfl, rfl, -, hrest⟩ := Derives.of_seq h
  obtain ⟨us₂, _, ts₂, ts₃, rfl, rfl, hdecl, -⟩ := Derives.of_seq hrest
  have h₁ := keeps_runAll s ts₁ ha
  have ha₁ := ha
  rw [← h₁.frames] at ha₁
  have h₂ := keeps_runAll s ts₂ ha₁
  have ha₂ := ha₁
  rw [← h₂.frames] at ha₂
  have h₃ := keeps_runAll s ts₃ ha₂
  have hstarted := started_run_grammarDecl hdecl (fun t ht ↦ hus t (by simp [ht])) ha₁
  rw [Tree.eventsAll_append, Tree.eventsAll_append, Follows.run_append, Follows.run_append]
  have hall := (h₁.trans h₂).trans h₃
  exact ⟨hall.frames.trans hf, hall.depth.trans hd, h₃.started hstarted⟩

/-- **Where a rule or a mode stands**, a formatter is right inside the grammar. -/
theorem atMargin_of_stands {us : List Token} {tree : Tree} {kind : NodeKind} {es : List Event}
    {i : Nat} (h : Stands s us tree kind es i) (hus : ∀ t ∈ us, t ∈ s.toList ∧ t.text ≠ "")
    (r : Rules) : (run { rules := r, stream := s } es).AtMargin := by
  have hown : NodeKind.grammarSpec.category.ownsFrame = true := rfl
  have henter : ∀ span, Keeps
      { rules := r, stream := s, frames := [{ category := .grammarSpec, savedIndent := 0 }] }
      (enter { rules := r, stream := s } .grammarSpec span) :=
    keeps_enter_of_ownsFrame { rules := r, stream := s } hown
  cases h with
  | @rule P pre R M E us vs ws ws₁ ws₂ _ hP =>
    have hg := henter (Tree.spanOf? (P ++ Tree.ofChildren .rules (pre ++ R) :: (M ++ E)))
    have hprelude := atMargin_run_prelude hP (fun t ht ↦ hus t (by simp [ht])) hg.frames hg.depth
    have hinherit : NodeKind.rules.category.entry = .inherit := rfl
    have hrules := hprelude.keeps (keeps_enter _ hinherit (Tree.spanOf? (pre ++ R)))
    rw [Follows.run_cons, Follows.run_append, Follows.run_cons]
    exact hrules.keeps (keeps_runAll s pre hrules.active)
  | @mode P R pre M E us vs vs' ws ws₁ _ hP =>
    have hg := henter (Tree.spanOf? (P ++ Tree.ofChildren .rules R :: (pre ++ M ++ E)))
    have hprelude := atMargin_run_prelude hP (fun t ht ↦ hus t (by simp [ht])) hg.frames hg.depth
    rw [Follows.run_cons, Tree.eventsAll_append, Follows.run_append]
    exact hprelude.keeps (keeps_runAll s _ hprelude.active)

end Formatter

/-- A page right inside the grammar, on which something stands, and for which no comments wait. -/
structure Page.AtMargin (p : Page) : Prop where
  /-- The one frame is that of the grammar. -/
  frames : p.frames = [{ category := .grammarSpec, savedIndent := 0 }]
  /-- Nothing is indented. -/
  depth : p.depth = 0
  /-- Something stands on the page. -/
  strokes : p.strokes ≠ []
  /-- All comments so far are written. -/
  comments : p.comments = []

theorem Shows.atMargin {r : Rules} {s : Stream} {m : Marks} {f : Formatter} {p : Page}
    (h : Shows r s m f p) (hf : f.AtMargin) (hc : p.comments = []) : p.AtMargin where
  frames := h.frames.symm.trans hf.frames
  depth := h.depth.symm.trans hf.depth
  strokes := by
    intro hp
    have hs := h.started
    rw [hf.started, hp] at hs
    exact absurd hs (by simp)
  comments := hc

/-! ### What remains at the margin -/

/-- What comes with the main tokens after a place is what is visible after it. The hidden tokens at
the place itself are left out on both sides. -/
theorem Place.coming_eq {s : Stream} {A H B : List Token} (hp : Place s A H B) :
    s.coming (B.filter (!·.isHidden)) =
      Segment.visible ((s.toList.drop (A.length + H.length)).map Token.segment) := by
  have hsplit : s.toList = (A ++ H) ++ B := by rw [hp.split, List.append_assoc]
  have hnone : B.takeWhile (·.isHidden) = [] := by
    cases B with
    | nil => rfl
    | cons t B => exact List.takeWhile_cons_of_neg (by simp [hp.head_main t rfl])
  have hcoming := Stream.coming_rest hsplit
  rw [hnone] at hcoming
  rw [hsplit, ← List.length_append, List.drop_left]
  exact hcoming

/-- **Where a rule or a mode stands**, formatter and page are together, before the first token of
it, and what remains of the walk is told by the tokens that are left. -/
theorem exists_follows_of_stands {r : Rules} {s : Stream} (hs : Readable r s) {tree : Tree}
    {kind : NodeKind} {es : List Event} {i : Nat} (h : Stands s s.mainTokens tree kind es i) :
    ∃ A H B beats,
      Follows r s A H B (Formatter.run { rules := r, stream := s } es)
        (Page.play r { comments := commentsOf (s.toList.takeWhile (·.isHidden)) }
          (es.map s.beatOf)) ∧
      (B.filter (!·.isHidden)).head?.map (·.index) = some i ∧
      Remainder s kind (B.filter (!·.isHidden)) beats ∧
      tree.beats s = es.map s.beatOf ++ beats := by
  obtain ⟨hstart, hmain⟩ := Follows.start r s
  generalize s.mainTokens = us at h hmain
  cases h with
  | @rule P pre R M E us vs ws ws₁ ws₂ _ hP hpre hR hspan hM hE hi =>
    obtain ⟨vR, rfl, hdR⟩ := finds_parse _ hR
    obtain ⟨vM, rfl, hdM⟩ := finds_parse _ hM
    obtain ⟨vE, rfl, hdE⟩ := finds_parse _ hE
    have hrules : Over (vs ++ vR) (pre ++ R) := hpre.over.append hdR.over
    have hall : Over (us ++ (vs ++ vR ++ (vM ++ vE)))
        (P ++ Tree.ofChildren .rules (pre ++ R) :: (M ++ E)) :=
      hP.over.append (.node hrules (hdM.over.append hdE.over))
    -- into the grammar, over the prelude, into the node of the rules, over the rules before
    have hgrammar := hstart.enter hs .grammarSpec (Follows.first_eq hall hstart.place
      (hmain.trans (by simp : _ = us ++ (vs ++ vR ++ (vM ++ vE)) ++ [])))
    obtain ⟨A₁, H₁, B₁, h₁, hb₁, -⟩ := Follows.run hs hP.over hgrammar hmain
    have henter := h₁.enter hs .rules (Follows.first_eq hrules h₁.place
      (hb₁.trans (List.append_assoc ..).symm))
    obtain ⟨A₂, H₂, B₂, h₂, hb₂, -⟩ := Follows.run hs hpre.over henter hb₁
    refine ⟨A₂, H₂, B₂, _, ?_, hb₂ ▸ hi, hb₂ ▸ Remainder.rules hR (.modes hM hE), ?_⟩
    · rw [Follows.run_cons, Follows.run_append, Follows.run_cons, List.map_cons, List.map_append,
        List.map_cons, ← Tree.beatsAll_eq_map, ← Tree.beatsAll_eq_map, Page.play_cons,
        Page.play_append, Page.play_cons]
      exact h₂
    -- there is a rule still to come, so the nodes around it cover a token
    · have hcovers : vR ≠ [] := by
        rintro rfl
        rw [hdR.over.isSome_spanOf?] at hspan
        exact absurd hspan (by simp)
      rw [hall.beats_ofChildren (by simp [hcovers]), Tree.beatsAll_append, Tree.beatsAll,
        hrules.beats_ofChildren (by simp [hcovers]), Tree.beatsAll_append, Tree.beatsAll_append]
      simp [Tree.beatsAll_eq_map]
  | @mode P R pre M E us vs vs' ws ws₁ _ hP hR hpre hM hE hi =>
    obtain ⟨vM, rfl, hdM⟩ := finds_parse _ hM
    obtain ⟨vE, rfl, hdE⟩ := finds_parse _ hE
    have habove : Over (us ++ (vs ++ vs')) (P ++ Tree.ofChildren .rules R :: pre) :=
      hP.over.append (.node hR.over hpre.over)
    have hall : Over (us ++ (vs ++ (vs' ++ vM ++ vE)))
        (P ++ Tree.ofChildren .rules R :: (pre ++ M ++ E)) :=
      hP.over.append (.node hR.over ((hpre.over.append hdM.over).append hdE.over))
    -- into the grammar, and over all that stands above the mode
    have hgrammar := hstart.enter hs .grammarSpec (Follows.first_eq hall hstart.place
      (hmain.trans (by simp : _ = us ++ (vs ++ (vs' ++ vM ++ vE)) ++ [])))
    obtain ⟨A₁, H₁, B₁, h₁, hb₁, -⟩ := Follows.run hs habove hgrammar
      (hmain.trans (by simp : _ = us ++ (vs ++ vs') ++ (vM ++ (vE ++ []))))
    refine ⟨A₁, H₁, B₁, _, ?_, hb₁ ▸ hi, hb₁ ▸ Remainder.modes hM hE, ?_⟩
    · rw [Follows.run_cons, List.map_cons, ← Tree.beatsAll_eq_map, Page.play_cons]
      exact h₁
    -- there is a mode still to come
    · have hcovers : us ++ (vs ++ (vs' ++ vM ++ vE)) ≠ [] := by
        intro hnil
        simp only [List.append_eq_nil_iff] at hnil
        rw [hnil.2.2.1.2, hnil.2.2.2] at hi
        exact absurd hi (by simp)
      rw [hall.beats_ofChildren hcovers, Tree.beatsAll_append]
      simp [Tree.beatsAll_eq_map, Tree.eventsAll_append, Tree.eventsAll]

/-- **Where a rule or a mode is entered**, the formatter shows a page right inside the grammar, and
the tokens that are left tell the rest of the walk. -/
theorem exists_shows_of_enter {r : Rules} {s : Stream} (hs : Readable r s) {tree : Tree}
    (h : readGrammar s.mainTokens = .ok tree) {kind : NodeKind}
    (hk : kind = .ruleSpec ∨ kind = .modeSpec) {es rest : List Event} {sp : Span}
    (he : tree.events s = es ++ .enter kind (some sp) :: rest) :
    ∃ m p us beats,
      Shows r s m ((Formatter.run { rules := r, stream := s } es).approach kind (some sp)) p ∧
      p.AtMargin ∧
      Page.ofTree r s tree = (p.pushFrame kind.category).play r beats ∧
      Remainder s kind us (.enter kind true :: beats) ∧ (∀ t ∈ us, t ∈ s.mainTokens) ∧
      s.coming us = Segment.visible ((s.toList.drop sp.start).map Token.segment) := by
  obtain ⟨_, ⟨⟩, hstands⟩ := stands_of_enter h hk he
  obtain ⟨A, H, B, beats, hf, hhead, hrem, hbeats⟩ := exists_follows_of_stands hs hstands
  have hmargin : ((Formatter.run { rules := r, stream := s } es).approach kind
      (some sp)).AtMargin := by
    refine (Formatter.atMargin_of_stands hstands (fun t ht ↦ ?_) r).keeps
      (Formatter.keeps_approach _ kind (some sp))
    obtain ⟨hm, -⟩ := List.mem_filter.1 ht
    exact ⟨hm, fun hnil ↦ hs.text_ne_nil t hm (by rw [Token.segment, hnil]; rfl)⟩
  have hentered : .enter kind (some sp) ∈ Tree.eventsAll s [tree] := by
    simp [Tree.eventsAll, he]
  have hle : sp.start ≤ sp.stop :=
    (derives_of_readGrammar h).over.start_le_stop_of_enter
      (List.pairwise_map.1 s.pairwise_mainTokens) hentered
  -- the node starts with the token that comes next
  obtain ⟨t, ht, hi⟩ := Option.map_eq_some_iff.1 hhead
  obtain ⟨us, hus⟩ := List.head?_eq_some_iff.1 ht
  obtain ⟨B, rfl, -⟩ := Follows.exists_cons hf.place hus
  have hstart : sp.start = A.length + H.length := hi ▸ hf.place.index_head
  have hspan : ∀ sp' ∈ some sp, sp'.first = A.length + H.length := by
    intro sp' hsp
    obtain rfl := Option.mem_some_iff.1 hsp
    rw [Span.first, Nat.min_eq_left hle, hstart]
  obtain ⟨hplace, m, fresh, hshows, -, -⟩ := hf.approach hs kind hspan
  rw [Tree.beats_eq_map, he, List.map_append, List.append_cancel_left_eq, List.map_cons] at hbeats
  refine ⟨m, _, _, rest.map s.beatOf, hshows, hshows.atMargin hmargin (Follows.comments_flush ..),
    ?_, hbeats ▸ hrem, ?_, ?_⟩
  · rw [Page.ofTree, Tree.beats_eq_map, he, List.map_append, Page.play_append, List.map_cons,
      Page.play_cons]
    rfl
  · intro t ht
    obtain ⟨hm, hh⟩ := List.mem_filter.1 ht
    refine List.mem_filter.2 ⟨?_, hh⟩
    rw [hplace.split, ← List.append_assoc]
    exact List.mem_append_right _ hm
  · rw [hstart]
    exact hplace.coming_eq

/-! ### Two sources -/

/-- Two streams that the rules read: what is put out from a rule or a mode on is the same. The text
is split at the moment of the node, and the second part is the text of the beats that remain, from
pages that are beside each other. -/
theorem exists_below {r : Rules} {s s' : Stream} (hs : Readable r s) (hs' : Readable r s')
    {tree tree' : Tree} (h : readGrammar s.mainTokens = .ok tree)
    (h' : readGrammar s'.mainTokens = .ok tree') {kind : NodeKind}
    (hk : kind = .ruleSpec ∨ kind = .modeSpec) {es rest es' rest' : List Event} {sp sp' : Span}
    (he : tree.events s = es ++ .enter kind (some sp) :: rest)
    (he' : tree'.events s' = es' ++ .enter kind (some sp') :: rest')
    (hv : Segment.visible ((s.toList.drop sp.start).map Token.segment) =
      Segment.visible ((s'.toList.drop sp'.start).map Token.segment)) :
    ∃ below : String,
      (Formatter.ofTree r s tree).formatted.rendered =
        Formatter.above r s es kind (some sp) ++ below ∧
      (Formatter.ofTree r s' tree').formatted.rendered =
        Formatter.above r s' es' kind (some sp') ++ below := by
  obtain ⟨m, p, us, beats, hp, hm, hpage, hrem, hus, hcoming⟩ := exists_shows_of_enter hs h hk he
  obtain ⟨m', p', us', beats', hp', hm', hpage', hrem', hus', hcoming'⟩ :=
    exists_shows_of_enter hs' h' hk he'
  have hbeats : beats' = beats := by
    have hmain : ∀ {s : Stream} {us : List Token}, (∀ t ∈ us, t ∈ s.mainTokens) →
        ∀ t ∈ us, t ∈ s.toList ∧ t.isHidden = false := fun hus t ht ↦
      (List.mem_filter.1 (hus t ht)).imp_right (by simp)
    have hsame := map_beat_of_coming (hcoming'.trans (hv.symm.trans hcoming.symm))
      (fun t ht ↦ (hmain hus t ht).2) (fun t ht ↦ (hmain hus' t ht).2)
    exact (List.cons.inj (hrem.unique hrem' hsame (fun t ht ↦ (hmain hus t ht).1)
      (fun t ht ↦ (hmain hus' t ht).1))).2
  have hentry : kind.category.entry = .block := by
    rcases hk with rfl | rfl <;> rfl
  have hbeside := Page.beside_pushFrame r.indentWidth hentry hm.strokes hm'.strokes
    (hm'.depth.trans hm.depth.symm) (hm'.frames.trans hm.frames.symm)
    (hm'.comments.trans hm.comments.symm)
  obtain ⟨y, hy, hy'⟩ := (hbeside.play r beats).exists_text
  obtain ⟨_, hshows⟩ := shows_ofTree hs (derives_of_readGrammar h).over
  obtain ⟨_, hshows'⟩ := shows_ofTree hs' (derives_of_readGrammar h').over
  refine ⟨String.ofList y, ?_, ?_⟩
  · rw [← String.toList_inj, hshows.toList_rendered, String.toList_append, Formatter.above,
      String.toList_join, String.toList_ofList, hp.chunks, hpage, hy]
    rfl
  · rw [← String.toList_inj, hshows'.toList_rendered, String.toList_append, Formatter.above,
      String.toList_join, String.toList_ofList, hp'.chunks, hpage', hbeats, hy']
    rfl

/-- **The text above a rule or a mode does not change the layout below it**: where the same visible
segments follow from the first token of a rule on in two sources, or from the first token of a mode
on, the same is put out from the moment its frame is pushed until the end. -/
theorem rendered_below_eq (r : Rules) {source source' : String} {tree tree' : Tree}
    (h : parse (tokenize source) = .ok tree) (h' : parse (tokenize source') = .ok tree')
    {kind : NodeKind} (hk : kind = .ruleSpec ∨ kind = .modeSpec)
    {es rest es' rest' : List Event} {sp sp' : Span}
    (he : tree.events (tokenize source) = es ++ .enter kind (some sp) :: rest)
    (he' : tree'.events (tokenize source') = es' ++ .enter kind (some sp') :: rest')
    (hv : Segment.visible (((tokenize source).toList.drop sp.start).map Token.segment) =
      Segment.visible (((tokenize source').toList.drop sp'.start).map Token.segment)) :
    ∃ out out' below, format r source = .ok out ∧ format r source' = .ok out' ∧
      out.rendered = Formatter.above r (tokenize source) es kind (some sp) ++ below ∧
      out'.rendered = Formatter.above r (tokenize source') es' kind (some sp') ++ below := by
  have ho := (derives_of_parse h).over
  have ho' := (derives_of_parse h').over
  have hread : ∀ {source : String} {tree : Tree}, parse (tokenize source) = .ok tree →
      readGrammar ((tokenize source).muted r).mainTokens = .ok tree := by
    intro source tree h
    rw [Stream.mainTokens_muted]
    exact parse_eq_ok_iff.1 h
  obtain ⟨below, hb, hb'⟩ := exists_below (Stream.readable_muted r source)
    (Stream.readable_muted r source') (hread h) (hread h') hk (ho.events_muted.trans he)
    (ho'.events_muted.trans he') (by
      rw [Stream.toList_muted, Stream.toList_muted, ← List.map_drop, ← List.map_drop,
        Stream.visible_muted, Stream.visible_muted, hv])
  rw [Formatter.rendered_ofTree_muted r ho, Formatter.above_muted] at hb
  rw [Formatter.rendered_ofTree_muted r ho', Formatter.above_muted] at hb'
  exact ⟨_, _, below, format_eq_ok_iff.2 ⟨tree, h, rfl⟩, format_eq_ok_iff.2 ⟨tree', h', rfl⟩,
    hb, hb'⟩

/-- A stream that can be read with an event in the walk over its tree. -/
theorem exists_split_of_any {s : Stream} {e : Event}
    (h : (parse s).toOption.any (fun tree ↦ decide (e ∈ tree.events s)) = true) :
    ∃ tree es rest, parse s = .ok tree ∧ tree.events s = es ++ e :: rest := by
  cases hp : parse s with
  | error d =>
    rw [hp] at h
    exact absurd h (by simp [Except.toOption])
  | ok tree =>
    rw [hp] at h
    obtain ⟨es, rest, he⟩ := List.append_of_mem (of_decide_eq_true h)
    exact ⟨tree, es, rest, rfl, he⟩

/-- A rule right after the header, and the same rule after comments, options and a rule that cannot
be read. -/
theorem below_broken_rule :
    ∃ tree tree' es rest es' rest' out out' below,
      parse (tokenize "grammar T; c:d; // e") = .ok tree ∧
      parse (tokenize "/* h */ grammar T; options \x7bk=v;\x7d b : (e ; // g\nc : d ;\n// e ") =
        .ok tree' ∧
      tree.events (tokenize "grammar T; c:d; // e") =
        es ++ .enter .ruleSpec (some ⟨5, 8⟩) :: rest ∧
      tree'.events
          (tokenize "/* h */ grammar T; options \x7bk=v;\x7d b : (e ; // g\nc : d ;\n// e ") =
        es' ++ .enter .ruleSpec (some ⟨27, 33⟩) :: rest' ∧
      format Rules.standard "grammar T; c:d; // e" = .ok out ∧
      format Rules.standard
        "/* h */ grammar T; options \x7bk=v;\x7d b : (e ; // g\nc : d ;\n// e " = .ok out' ∧
      out.rendered = Formatter.above Rules.standard (tokenize "grammar T; c:d; // e") es .ruleSpec
        (some ⟨5, 8⟩) ++ below ∧
      out'.rendered = Formatter.above Rules.standard
        (tokenize "/* h */ grammar T; options \x7bk=v;\x7d b : (e ; // g\nc : d ;\n// e ") es'
        .ruleSpec (some ⟨27, 33⟩) ++ below := by
  obtain ⟨tree, es, rest, hp, he⟩ := exists_split_of_any (s := tokenize "grammar T; c:d; // e")
    (e := .enter .ruleSpec (some ⟨5, 8⟩)) (by decide +kernel)
  obtain ⟨tree', es', rest', hp', he'⟩ := exists_split_of_any
    (s := tokenize "/* h */ grammar T; options \x7bk=v;\x7d b : (e ; // g\nc : d ;\n// e ")
    (e := .enter .ruleSpec (some ⟨27, 33⟩)) (by decide +kernel)
  obtain ⟨out, out', below, h⟩ :=
    rendered_below_eq Rules.standard hp hp' (.inl rfl) he he' (by decide +kernel)
  exact ⟨tree, tree', es, rest, es', rest', out, out', below, hp, hp', he, he', h⟩

end GrammarLayout
