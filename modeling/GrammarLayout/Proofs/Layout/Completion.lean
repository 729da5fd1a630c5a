import GrammarLayout.Proofs.Layout.ActionStrokes

/-!
# Complete pages

Along a forest a page grows by the tokens of the forest, each with the comments after it
(`Grows.forest`). That is one induction over forests, which shows three things at once: nothing is
lost, neighbours are kept apart, and the page ends calmly. The last one holds because a construct
that starts a line has a token to write there, so that no two line ends are left open at the end.

For the tree of a whole grammar all that was to be written is written (`complete_ofTree`).

The cases of the induction are those of a forest:

* a main token is a step of its own (`Grows.leaf`, from the module on growth);

* an action is laid out at once, from its opening brace to its closing one (`Grows.action`), since
  in between the rules of the surrounding construct do not hold;

* a node is its content between the steps that enter and leave it (`Grows.node`). Entering may end a
  line and push a frame, leaving takes the frame off again, and the frames that are in force around
  the node come back as they were.

The tokens of a stream come with the hidden tokens after them. `Stream.coming` puts the two into one
list, and over the whole stream that list is what is visible of it (`Stream.coming_rest`); comments
before the first token are on the page from the start.
-/

namespace GrammarLayout

/-! ### Forests -/

namespace Sound

variable {r : Rules} {p : Page}

theorem flush (hp : Sound r p) (category : Category) : Sound r (p.flush category) := by
  have h : Grows r (fun _ ↦ True) p (p.flush category) [] :=
    .flush (fun _ _ ↦ trivial) hp category
  exact h.sound

/-- A leaf keeps the strokes fitting; inside an action, it has to be one of its pieces. -/
theorem leaf (hp : Sound r p) {c : Segment} (hc : c.kind.isHidden = false)
    (ha : p.frames.active = .actionBlock → c.kind.isActionPiece = true) {following : List Segment}
    (hf : ∀ d ∈ following, IsCommentText d) : Sound r (p.leaf r c following) := by
  have hq := hp.flush p.frames.active
  have hfr := (frames_flush p.frames.active p).1
  rw [Page.leaf]
  generalize p.flush p.frames.active = q at hq hfr ⊢
  have hops : ∀ (ops : List LayoutOp) (t : Page), Sound r t → t.frames.active = p.frames.active →
      Sound r (ops.foldl (Page.runOp r c) t) := by
    intro ops
    induction ops with
    | nil => exact fun t ht _ ↦ ht
    | cons op ops ih =>
      intro t ht hact
      cases op with
      | newLine => exact ih _ ht.newLine hact
      | indent | dedent => exact ih _ { ht with } hact
      | emit =>
        refine ih _ (ht.emit hc (hact ▸ ha)) ?_
        rw [Page.runOp, Page.emit, ← hact]
        split <;> rw [Page.settle] <;> split <;> rfl
  exact { hops _ { q with frames := q.frames.after c.kind } { hq with }
    (by rw [Grows.active_after, hfr]) with comments := hf }

theorem pushFrame (hp : Sound r p) (category : Category) : Sound r (p.pushFrame category) := by
  rw [Page.pushFrame]
  split
  · exact Fitting.newLine { hp with }
  · exact { hp with }
  · exact hp

theorem popFrame (hp : Sound r p) (category : Category) : Sound r (p.popFrame category) := by
  rw [Page.popFrame]
  split
  · split
    · exact hp
    · exact { hp with }
  · exact hp

/-- Pieces of an action keep the strokes fitting. -/
theorem play_pieces (hp : Sound r p) {cs : List Segment}
    (hk : ∀ c ∈ cs, c.kind.isActionPiece = true) :
    Sound r (p.play r (cs.map (.leaf · []))) := by
  have hm : ∀ k : Kind, k.isActionPiece = true → k.isHidden = false := by
    intro k hk
    cases k <;> first | rfl | exact absurd hk (by decide)
  induction cs generalizing p with
  | nil => exact hp
  | cons c cs ih =>
    rw [List.forall_mem_cons] at hk
    exact ih (hp.leaf (hm _ hk.1) (fun _ ↦ hk.1) (by simp)) hk.2

end Sound

/-- What the layout relies on in a stream: comments are written as such, the braces of actions are
braces, and no comment stands inside an action. The tokens of every source have these properties. -/
structure Legible (s : Stream) : Prop where
  /-- Comments as they are written. -/
  comment : ∀ t ∈ s.toList, t.isPlainComment = true → IsCommentText t.comment
  /-- Opening braces. -/
  beginAction : ∀ t ∈ s.toList, t.kind = .beginAction → t.segment = ⟨.beginAction, ['\x7b']⟩
  /-- Closing braces. -/
  endAction : ∀ t ∈ s.toList, t.kind = .endAction → t.segment = ⟨.endAction, ['\x7d']⟩
  /-- What follows inside an action. -/
  quiet : ∀ t ∈ s.toList, t.kind = .beginAction ∨ t.kind = .actionContent →
    commentsOf (s.hiddenAfter t.index) = []

/-- The segments that come with main tokens: the tokens, each with the comments after it. -/
def Stream.coming (s : Stream) (us : List Token) : List Segment :=
  us.flatMap fun t ↦ t.segment :: commentsOf (s.hiddenAfter t.index)

@[simp] theorem Stream.coming_nil (s : Stream) : s.coming [] = [] := rfl

@[simp] theorem Stream.coming_cons (s : Stream) (t : Token) (us : List Token) :
    s.coming (t :: us) = t.segment :: (commentsOf (s.hiddenAfter t.index) ++ s.coming us) := by
  simp [coming]

@[simp] theorem Stream.coming_append (s : Stream) (us vs : List Token) :
    s.coming (us ++ vs) = s.coming us ++ s.coming vs := by
  simp [coming]

/-- Tokens that no comment follows come by themselves. -/
theorem Stream.coming_of_quiet {s : Stream} {us : List Token}
    (h : ∀ t ∈ us, commentsOf (s.hiddenAfter t.index) = []) :
    s.coming us = us.map Token.segment := by
  induction us with
  | nil => rfl
  | cons t us ih =>
    rw [List.forall_mem_cons] at h
    rw [coming_cons, h.1, ih h.2]
    rfl

theorem Stream.get?_of_mem {s : Stream} {t : Token} (h : t ∈ s.toList) :
    s.get? t.index = some t := by
  obtain ⟨A, B, hs⟩ := List.append_of_mem h
  rw [Stream.index_eq_length hs, Stream.get?_length hs]

/-- The comments after a token are comments. -/
theorem Legible.following {s : Stream} (hs : Legible s) (i : Nat) :
    ∀ c ∈ commentsOf (s.hiddenAfter i), IsCommentText c := by
  intro c hc
  obtain ⟨t, ht, rfl⟩ := List.mem_map.1 hc
  obtain ⟨hm, hp⟩ := List.mem_filter.1 ht
  refine hs.comment t ?_ hp
  rw [Stream.hiddenAfter_eq] at hm
  exact List.mem_of_mem_drop ((List.takeWhile_sublist _).subset hm)

namespace Grows

variable {r : Rules} {lone : Segment → Prop} {p : Page}

/-- An action is laid out piece by piece. -/
theorem action (hl : ∀ c, IsCommentText c → lone c) (hp : Sound r p) {b e : Segment}
    {ps following : List Segment} (hb : b = ⟨.beginAction, ['\x7b']⟩)
    (hk : ∀ c ∈ ps, c.kind = .actionContent) (he : e = ⟨.endAction, ['\x7d']⟩)
    (hf : ∀ d ∈ following, IsCommentText d) :
    Grows r lone p ((p.withAction b ps e following).flush .actionBlock)
      (b :: (ps ++ [e]) ++ following) := by
  have hkp : ∀ c ∈ b :: ps, c.kind.isActionPiece = true := by
    intro c hc
    rcases List.mem_cons.1 hc with rfl | hc
    · rw [hb]; rfl
    · rw [hk c hc]; rfl
  have hsound : Sound r (p.withAction b ps e following) := by
    -- the page of the action is that of playing its pieces as leaves, whose soundness is known
    have hplay : Sound r (p.play r
        (.enter .actionBlock true :: ((b :: ps).map (.leaf · []) ++ [.leaf e following]))) := by
      rw [Page.play_cons, Page.play_append, Page.play_cons, Page.play_nil]
      have hen : Sound r (p.step r (.enter .actionBlock true)) :=
        (hp.flush .actionBlock).pushFrame .actionBlock
      exact (hen.play_pieces hkp).leaf (by rw [he]; rfl) (fun _ ↦ by rw [he]; rfl) hf
    rw [Page.play_pieces_action r p hb hk he] at hplay
    exact { hplay with }
  have hfl := flush hl hp .actionBlock
  obtain ⟨new, came, hn, hce, hla⟩ := hfl.laid
  rw [Follows.comments_flush, List.append_nil, List.append_nil] at hce
  obtain ⟨hst, hft, -, -⟩ := frames_settle (p.flush .actionBlock)
  have hgrow : Grows r lone p (p.withAction b ps e following) (b :: (ps ++ [e]) ++ following) := by
    have hnil : Laid lone [] [] := .nil
    have hact := Laid.action (p.flush .actionBlock).settle.gap (p.flush .actionBlock).settle.depth
      hb hk he hnil
    refine ⟨?_, ⟨_, _, ?_, ?_, hla.append hact⟩, hsound, fun _ ↦ .inl rfl⟩
    · rw [Page.withAction]
      dsimp only
      rw [hft, (frames_flush _ _).1]
    · rw [Page.withAction]
      dsimp only
      rw [hst, hn, List.append_assoc, List.append_nil]
    · rw [hce, Page.withAction]
      simp
  have hall := hgrow.trans (flush hl hsound .actionBlock)
  rwa [List.append_nil] at hall

theorem strokes_pushFrame (category : Category) (p : Page) :
    (p.pushFrame category).strokes = p.strokes ∧ (p.pushFrame category).comments = p.comments := by
  rw [Page.pushFrame]
  split <;> exact ⟨rfl, rfl⟩

/-- What is written, and what is to be written, when a construct is left. The gap stays, so a line
end that was asked for inside is still asked for. -/
theorem strokes_popFrame (category : Category) (p : Page) :
    (p.popFrame category).strokes = p.strokes ∧ (p.popFrame category).comments = p.comments ∧
      (p.popFrame category).gap = p.gap := by
  rw [Page.popFrame]
  split
  · split <;> exact ⟨rfl, rfl, rfl⟩
  · exact ⟨rfl, rfl, rfl⟩

/-- Only the nodes of actions have the layout of actions. -/
theorem category_ne {kind : NodeKind} (h : kind ≠ .actionBlock) : kind.category ≠ .actionBlock := by
  cases kind <;> first | exact absurd rfl h | decide

/-- The frames inside a construct. -/
theorem frames_pushFrame (category : Category) (p : Page) :
    (p.pushFrame category).frames =
      if category.ownsFrame then { category, savedIndent := p.depth } :: p.frames
      else p.frames := by
  rw [Page.pushFrame, Category.ownsFrame]
  cases category.entry <;> rfl

/-- What the frame of a construct held in force is in force again after it. Only the keys of frames
are compared, as the counts of parentheses in them change on the way. -/
theorem key_popFrame {category : Category} {p q : Page}
    (h : q.frames.map Frame.key = (p.pushFrame category).frames.map Frame.key) :
    (q.popFrame category).frames.map Frame.key = p.frames.map Frame.key := by
  rw [frames_pushFrame] at h
  rw [Page.popFrame]
  split
  · rename_i ho
    rw [if_pos ho] at h
    cases hq : q.frames with
    | nil => rw [hq] at h; exact absurd h (by simp)
    | cons f fs =>
      rw [hq, List.map_cons, List.map_cons] at h
      exact (List.cons.inj h).2
  · rename_i ho
    rwa [if_neg ho] at h

/-- A construct around what grows: one that starts a line has a token in it. Of its content it is
only used that it grows from any page on which it may stand. -/
theorem node (hl : ∀ c, IsCommentText c → lone c) (hp : Sound r p) {kind : NodeKind}
    (hne : kind.category.ownsFrame = true ∨ p.frames ≠ [])
    (ha : p.frames.active ≠ .actionBlock) (hk : kind ≠ .actionBlock) (covers : Bool)
    {bs : List Beat} {cs : List Segment}
    (hb : kind.category.entry = .block → ∃ c ∈ cs, c.kind.isHidden = false ∧ c.kind ≠ .eof)
    (hin : ∀ q : Page, Sound r q → q.frames ≠ [] → q.frames.active ≠ .actionBlock →
      Grows r lone q (q.play r bs) cs) :
    Grows r lone p (p.play r (.enter kind covers :: (bs ++ [.leave kind covers]))) cs := by
  rw [Page.play_cons, Page.play_append, Page.play_cons, Page.play_nil]
  have hcat := category_ne hk
  have h₀ : Grows r lone p (p.flushAt kind.category covers) [] := flushAt hl hp _ _
  have hfr : (p.flushAt kind.category covers).frames = p.frames := by
    cases covers
    · rfl
    · exact (frames_flush _ _).1
  -- the comments before it, the frame, the content, the comments in it, the frame again
  have henter : p.step r (.enter kind covers) =
      (p.flushAt kind.category covers).pushFrame kind.category := rfl
  rw [henter]
  generalize p.flushAt kind.category covers = q₀ at h₀ hfr
  have hq₁ := frames_pushFrame kind.category q₀
  obtain ⟨hs₁, hc₁⟩ := strokes_pushFrame kind.category q₀
  have hin₁ : Grows r lone (q₀.pushFrame kind.category)
      ((q₀.pushFrame kind.category).play r bs) cs := by
    refine hin _ (h₀.sound.pushFrame _) ?_ ?_
    · rw [hq₁, hfr]
      split
      · simp
      · rename_i ho
        exact hne.resolve_left ho
    · rw [hq₁, hfr]
      split
      · exact hcat
      · exact ha
  generalize (q₀.pushFrame kind.category).play r bs = q₂ at hin₁
  have h₃ : Grows r lone q₂ (q₂.flushAt kind.category covers) [] := flushAt hl hin₁.sound _ _
  have hleave : q₂.step r (.leave kind covers) =
      (q₂.flushAt kind.category covers).popFrame kind.category := rfl
  rw [hleave]
  have h₂₃ := hin₁.trans h₃
  rw [List.append_nil] at h₂₃
  generalize q₂.flushAt kind.category covers = q₃ at h₂₃
  obtain ⟨hs₄, hc₄, hg₄⟩ := strokes_popFrame kind.category q₃
  obtain ⟨new, came, hn, hce, hla⟩ := h₀.laid
  obtain ⟨new', came', hn', hce', hla'⟩ := h₂₃.laid
  rw [hs₁] at hn'
  rw [hc₁] at hce'
  refine ⟨(key_popFrame h₂₃.context).trans (by rw [hfr]), ⟨new ++ new', came ++ came', ?_, ?_,
    hla.append hla'⟩, h₂₃.sound.popFrame _, fun ht ↦ ?_⟩
  · rw [hs₄, hn', hn, List.append_assoc]
  · rw [List.append_nil] at hce
    rw [hc₄, hce, List.append_assoc, hce', List.append_assoc]
  · rw [Calm, hg₄]
    refine h₂₃.calm ?_
    by_cases hblock : kind.category.entry = .block
    · exact .inr (hb hblock)
    · refine ht.imp (fun hcp ↦ ?_) id
      have hg : (q₀.pushFrame kind.category).gap = q₀.gap := by
        rw [Page.pushFrame]
        split
        · rename_i he
          exact absurd he hblock
        · rfl
        · rfl
      rw [Calm, hg]
      exact h₀.calm (.inl hcp)

end Grows

/-- The beats of tokens side by side. -/
theorem beatsAll_leaves {s : Stream} {us : List Token} (hus : ∀ t ∈ us, t ∈ s.toList) :
    Tree.beatsAll s (us.map (.leaf ·.index)) = us.map s.beat := by
  induction us with
  | nil => rfl
  | cons t us ih =>
    rw [List.forall_mem_cons] at hus
    rw [List.map_cons, Tree.beatsAll, Tree.beats, Stream.get?_of_mem hus.1, ih hus.2]
    rfl

/-- The beats of an action: no comment stands inside it, so those that follow its closing brace are
the only ones. -/
theorem Legible.beats_actionTree {s : Stream} (hs : Legible s) {b e : Token} {cs : List Token}
    (hm : ∀ t ∈ b :: (cs ++ [e]), t ∈ s.toList) (hb : b.kind = .beginAction)
    (hc : ∀ c ∈ cs, c.kind = .actionContent) :
    (actionTree b cs e).beats s =
      .enter .actionBlock true ::
        (((b.segment :: cs.map Token.segment).map (.leaf · []) ++
          [.leaf e.segment (commentsOf (s.hiddenAfter e.index))]) ++
            [.leave .actionBlock true]) := by
  have hquiet : ∀ t ∈ b :: cs, s.beat t = .leaf t.segment [] := by
    intro t ht
    have hk : t.kind = .beginAction ∨ t.kind = .actionContent := by
      rcases List.mem_cons.1 ht with rfl | ht
      · exact .inl hb
      · exact .inr (hc t ht)
    rw [Stream.beat, hs.quiet t (hm t ?_) hk]
    rw [← List.cons_append]
    exact List.mem_append_left _ ht
  have hmap : (b :: (cs ++ [e])).map s.beat =
      (b :: cs).map (fun t ↦ .leaf t.segment []) ++ [s.beat e] := by
    rw [← List.cons_append, List.map_append, List.map_congr_left hquiet]
    rfl
  rw [actionTree, Tree.ofChildren, Tree.beats, (Over.leaves _).isSome_spanOf?, beatsAll_leaves hm,
    hmap]
  simp [Stream.beat]

/-- **Along a forest a page grows** by the tokens of the forest, each with the comments after it.
The forest is one in which no action stands inside another, and every construct that starts a line
starts with a token. -/
theorem Grows.forest {r : Rules} {lone : Segment → Prop} {s : Stream} (hs : Legible s)
    (hl : ∀ c, IsCommentText c → lone c) {us : List Token} {ts : List Tree}
    (hF : Forest Pattern.StartsWithToken (fun t ↦ t.kind ≠ .eof → lone t.segment) us ts)
    (hus : ∀ t ∈ us, t ∈ s.toList ∧ t.isHidden = false) {p : Page} (hp : Sound r p)
    (hne : p.frames ≠ []) (ha : p.frames.active ≠ .actionBlock) :
    Grows r lone p (p.play r (Tree.beatsAll s ts)) (s.coming us) := by
  induction hF generalizing p with
  | nil => exact .refl hp
  | @leaf t us ts ht _ ih | @stray t us ts ht _ ih =>
    rw [List.forall_mem_cons] at hus
    have hm : t.segment.kind.isHidden = false := hus.1.2
    have hg := Grows.leaf hl hp hne ha hm ht (hs.following t.index)
    have hall := hg.trans (ih hus.2 hg.sound (hg.frames_ne hne) (hg.active_eq ▸ ha))
    simpa [Tree.beatsAll, Tree.beats, Stream.get?_of_mem hus.1.1, Stream.beat, Page.step] using hall
  | @action b e cs us ts hb hc he _ ih =>
    have hin : ∀ t ∈ b :: (cs ++ [e]), t ∈ s.toList := fun t ht ↦
      (hus t (List.mem_append_left _ ht)).1
    have hbs := hs.beginAction b (hin b (by simp)) hb
    have hes := hs.endAction e (hin e (by simp)) he
    have hcs : ∀ c ∈ cs.map Token.segment, c.kind = .actionContent := by
      intro c hm
      obtain ⟨t, ht, rfl⟩ := List.mem_map.1 hm
      exact hc t ht
    have hg := Grows.action hl hp hbs hcs hes (hs.following e.index)
    rw [← Page.play_action r p hbs hcs hes, ← hs.beats_actionTree hin hb hc] at hg
    have hus' : ∀ t ∈ us, t ∈ s.toList ∧ t.isHidden = false := fun t ht ↦
      hus t (List.mem_append_right _ ht)
    have hall := hg.trans (ih hus' hg.sound (hg.frames_ne hne) (hg.active_eq ▸ ha))
    have hcome : s.coming (b :: (cs ++ [e])) =
        b.segment :: (cs.map Token.segment ++ [e.segment]) ++
          commentsOf (s.hiddenAfter e.index) := by
      have hq : ∀ t ∈ b :: cs, commentsOf (s.hiddenAfter t.index) = [] := by
        intro t ht
        rcases List.mem_cons.1 ht with rfl | ht
        · exact hs.quiet t (hin t (by simp)) (.inl hb)
        · exact hs.quiet t (hin t (by simp [ht])) (.inr (hc t ht))
      rw [← List.cons_append, Stream.coming_append, Stream.coming_of_quiet hq]
      simp
    rw [Tree.beatsAll, Page.play_append, Stream.coming_append, hcome]
    exact hall
  | @node kind us vs ts ts' hk hf hu hv ih₁ ih₂ =>
    have husu : ∀ t ∈ us, t ∈ s.toList ∧ t.isHidden = false := fun t ht ↦
      hus t (List.mem_append_left _ ht)
    have husv : ∀ t ∈ vs, t ∈ s.toList ∧ t.isHidden = false := fun t ht ↦
      hus t (List.mem_append_right _ ht)
    have htok : kind.category.entry = .block →
        ∃ c ∈ s.coming us, c.kind.isHidden = false ∧ c.kind ≠ .eof := by
      intro hb
      obtain ⟨t, ht, hne⟩ := hf hb
      exact ⟨t.segment, List.mem_flatMap.2 ⟨t, ht, List.mem_cons_self⟩, (husu t ht).2, hne⟩
    have hg := Grows.node hl hp (.inr hne) ha hk (Tree.spanOf? ts).isSome htok
      fun q hq hqn hqa ↦ ih₁ husu hq hqn hqa
    have hall := hg.trans (ih₂ husv hg.sound (hg.frames_ne hne) (hg.active_eq ▸ ha))
    rw [Tree.beatsAll, Page.play_append, Stream.coming_append, Tree.ofChildren, Tree.beats]
    exact hall

/-! ### Whole pages -/

/-- What is written of a token: its segment, or nothing if it is hidden and no comment. -/
theorem visible_segment (t : Token) :
    Segment.visible [t.segment] =
      if t.isHidden then if t.isPlainComment then [t.comment] else [] else [t.segment] := by
  unfold Segment.visible Segment.isVisible Token.isPlainComment Token.comment Token.segment
    Token.isHidden
  cases hk : t.kind <;> rfl

/-- What comes with the main tokens of the rest of a stream is what is visible of the rest. Hidden
tokens are taken with the token before them, so the induction is over any rest of the stream. -/
theorem Stream.coming_rest {s : Stream} {A B : List Token} (h : s.toList = A ++ B) :
    commentsOf (B.takeWhile (·.isHidden)) ++ s.coming (B.filter (!·.isHidden)) =
      Segment.visible (B.map Token.segment) := by
  induction B generalizing A with
  | nil => rfl
  | cons t B ih =>
    have hB := ih (A := A ++ [t]) (by rw [h, List.append_assoc]; rfl)
    rw [List.map_cons, Segment.visible_cons, visible_segment, ← hB]
    cases ht : t.isHidden with
    | true =>
      rw [List.takeWhile_cons_of_pos ht, List.filter_cons_of_neg (by simp [ht]), if_pos rfl,
        commentsOf, List.filter_cons]
      split <;> simp [commentsOf]
    | false =>
      have ha : s.hiddenAfter t.index = B.takeWhile (·.isHidden) := by
        rw [Stream.hiddenAfter_eq, Stream.index_eq_length h, h, List.append_cons,
          List.drop_left' (by simp)]
      rw [List.takeWhile_cons_of_neg (by simp [ht]), List.filter_cons_of_pos (by simp [ht]),
        Stream.coming_cons, ha, if_neg (by simp)]
      rfl

/-- What is known of a page once all of a grammar is laid out on it. -/
structure Complete (r : Rules) (lone : Segment → Prop) (s : Stream) (p : Page) : Prop where
  /-- All that is to be written is written. -/
  laid : Laid lone (Segment.visible (s.toList.map Token.segment)) p.strokes
  /-- The strokes fit together. -/
  sound : Sound r p
  /-- At most one line end is open. -/
  calm : Calm p
  /-- Something is written. -/
  strokes_ne : p.strokes ≠ []

/-- **The page of a grammar is complete**: everything that is to be written of the stream is laid
out on it, and nothing else is. -/
theorem complete_ofTree {r : Rules} {lone : Segment → Prop} {s : Stream} (hs : Legible s)
    (hl : ∀ c, IsCommentText c → lone c) {ts : List Tree}
    (hF : Forest Pattern.StartsWithToken (fun t ↦ t.kind ≠ .eof → lone t.segment) s.mainTokens ts)
    (hne : ∃ t ∈ s.mainTokens, t.kind ≠ .eof) :
    Complete r lone s (Page.ofTree r s (Tree.ofChildren .grammarSpec ts)) := by
  obtain ⟨t, ht, htk⟩ := hne
  have hmain : ∀ t ∈ s.mainTokens, t ∈ s.toList ∧ t.isHidden = false := by
    intro t ht
    obtain ⟨hm, hh⟩ := List.mem_filter.1 ht
    exact ⟨hm, by simpa using hh⟩
  have hcov : (Tree.spanOf? ts).isSome = true := by
    rw [hF.over.isSome_spanOf?]
    cases hm : s.mainTokens with
    | nil => rw [hm] at ht; exact absurd ht (by simp)
    | cons => rfl
  -- the page starts empty, with the comments before the first token
  have hp : Sound r { comments := commentsOf (s.toList.takeWhile (·.isHidden)) } := by
    refine ⟨⟨fun c hc ↦ ?_, by simp, fun _ ↦ rfl, by simp, by simp⟩, by simp⟩
    obtain ⟨u, hu, rfl⟩ := List.mem_map.1 hc
    obtain ⟨hm, hpc⟩ := List.mem_filter.1 hu
    exact hs.comment u ((List.takeWhile_sublist _).subset hm) hpc
  have htok : ∃ c ∈ s.coming s.mainTokens, c.kind.isHidden = false ∧ c.kind ≠ .eof :=
    ⟨t.segment, List.mem_flatMap.2 ⟨t, ht, List.mem_cons_self⟩, (hmain t ht).2, htk⟩
  have hg : Grows r lone { comments := commentsOf (s.toList.takeWhile (·.isHidden)) }
      (Page.ofTree r s (Tree.ofChildren .grammarSpec ts)) (s.coming s.mainTokens) := by
    rw [Page.ofTree, Tree.ofChildren, Tree.beats]
    exact .node hl hp (.inl rfl) (by simp [Frames.active]) (by decide) _ (fun _ ↦ htok)
      fun q hq hqn hqa ↦ .forest hs hl hF hmain hq hqn hqa
  -- no comment is left when the root is
  have hcm : (Page.ofTree r s (Tree.ofChildren .grammarSpec ts)).comments = [] := by
    rw [Page.ofTree, Tree.ofChildren, Tree.beats, hcov, Page.play_cons, Page.play_append,
      Page.play_cons, Page.play_nil]
    exact (Follows.comments_popFrame ..).trans (Follows.comments_flush ..)
  obtain ⟨new, came, hn, hce, hla⟩ := hg.laid
  rw [hcm, List.append_nil] at hce
  have hlaid : Laid lone (Segment.visible (s.toList.map Token.segment))
      (Page.ofTree r s (Tree.ofChildren .grammarSpec ts)).strokes := by
    have hall : Segment.visible (s.toList.map Token.segment) = came := by
      rw [← Stream.coming_rest (A := []) (B := s.toList) rfl]
      exact hce
    rw [hn, hall]
    exact hla
  refine ⟨hlaid, hg.sound, hg.calm (.inr htok), fun hnil ↦ htk ?_⟩
  rw [hnil] at hlaid
  obtain ⟨A, B, hAB⟩ := List.append_of_mem (hmain t ht).1
  refine hlaid.kind_of_nil t.segment ?_
  rw [hAB, List.map_append, List.map_cons, Segment.visible_append, Segment.visible_cons,
    visible_segment, if_neg (by simp [(hmain t ht).2])]
  simp

/-- A complete page is its strokes and one line end. Trimming the end of the text and adding a line
end to it gives the same. -/
theorem Complete.text_eq {r : Rules} {lone : Segment → Prop} {s : Stream} {p : Page}
    (h : Complete r lone s p) (width : Nat) : p.text width = inked width p.strokes ++ ['\n'] := by
  have hn : p.strokes.isEmpty = false := List.isEmpty_eq_false_iff.2 h.strokes_ne
  rw [Page.text, Page.atLineStart, hn]
  rcases h.calm with hg | ⟨depth, hg⟩ <;> rw [hg] <;> rfl

end GrammarLayout
