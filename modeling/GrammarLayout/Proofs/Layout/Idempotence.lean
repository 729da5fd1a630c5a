import GrammarLayout.Proofs.Layout.Resemblance

/-!
# Laying out a layout

A layout is its own layout (`format_idempotent`). What is read again of it resembles the source, so
the same nodes are read off it over tokens that correspond (`alike_of_resembles`), and the walk over
these puts the same strokes on the page (`play_matched`). Actions are compared as a whole, because
they may have other pieces in the layout; everything else corresponds token by token, each with the
comments after it.

One thing can go wrong. A quote without a partner in an action is a piece by itself only because its
line ends before another quote, and the layout may take the line end away
(`lone_quote_is_laid_out_anew`).

The proof puts three results together. A source about which nothing is reported is laid out so that
its strokes are read again; what is read resembles what was laid out, the same segments with other
pieces in actions; and tokens that are read alike give matching trees. What is new here is the way
back, from segments that resemble each other to tokens that do (`alike_of_coming`), and that
matching trees over such tokens lay out the same page. For the first, tokens come with the comments
after them, so a hidden segment belongs to the token before it, and a main one starts the next token
(`Stream.coming_hidden_inv`, `Stream.coming_cons_inv`). For the second, an action is one step
(`Page.play_action`), whatever its pieces are, and depends on the strokes they are laid out as.
-/

namespace GrammarLayout

/-! ### Tokens that correspond -/

/-- Tokens of two streams with the same text and the same comments after them. That is all the
layout looks at, so it is said by their beats. -/
structure Corresponds (s s' : Stream) (t t' : Token) : Prop where
  /-- The one is a token of the first stream. -/
  mem : t ∈ s.toList
  /-- The other is a token of the second stream. -/
  mem' : t' ∈ s'.toList
  /-- They are laid out in the same way. -/
  beat : s'.beat t' = s.beat t

/-- Pieces of actions of two streams with the same layout. The pieces themselves may differ: the
second ones were read off the layout of the first. -/
structure SameLayout (s s' : Stream) (cs cs' : List Token) : Prop where
  /-- The ones are tokens of the first stream. -/
  mem : ∀ c ∈ cs, c ∈ s.toList
  /-- The others are tokens of the second stream. -/
  mem' : ∀ c ∈ cs', c ∈ s'.toList
  /-- They are laid out in the same way. -/
  strokes : ∀ depth, pieceStrokes depth .nothing (cs'.map Token.segment) =
    pieceStrokes depth .nothing (cs.map Token.segment)

/-- A main segment that comes with tokens is that of the first of them, with nothing before it. -/
theorem Stream.coming_cons_inv {s : Stream} {cm cs : List Segment} {us : List Token} {c : Segment}
    (h : cm ++ s.coming us = c :: cs) (hc : ∀ d ∈ cm, d.kind.isHidden = true)
    (hm : c.kind.isHidden = false) :
    cm = [] ∧ ∃ t us', us = t :: us' ∧ t.segment = c ∧
      commentsOf (s.hiddenAfter t.index) ++ s.coming us' = cs := by
  cases cm with
  | cons d cm =>
    obtain ⟨rfl, -⟩ := List.cons.inj h
    exact absurd (hc d List.mem_cons_self) (by simp [hm])
  | nil =>
    cases us with
    | nil => exact absurd h (by simp)
    | cons t us =>
      rw [List.nil_append, coming_cons] at h
      obtain ⟨ht, hrest⟩ := List.cons.inj h
      exact ⟨rfl, t, us, rfl, ht, hrest⟩

/-- A hidden segment that comes first is one of the comments that come before the tokens. -/
theorem Stream.coming_hidden_inv {s : Stream} {cm cs : List Segment} {us : List Token} {c : Segment}
    (h : cm ++ s.coming us = c :: cs) (hu : ∀ t ∈ us, t.isHidden = false)
    (hm : c.kind.isHidden = true) : ∃ cm', cm = c :: cm' ∧ cm' ++ s.coming us = cs := by
  cases cm with
  | cons d cm =>
    obtain ⟨rfl, hrest⟩ := List.cons.inj h
    exact ⟨cm, rfl, hrest⟩
  | nil =>
    cases us with
    | nil => exact absurd h (by simp)
    | cons t us =>
      rw [List.nil_append, coming_cons] at h
      obtain ⟨rfl, -⟩ := List.cons.inj h
      exact absurd (hu t List.mem_cons_self) (by rw [show t.isHidden = true from hm]; decide)

/-- Pieces of an action that come with tokens are those of the first of them. -/
theorem Stream.coming_pieces_inv {s : Stream} {cm ps cs : List Segment} {us : List Token}
    {e : Segment} (h : cm ++ s.coming us = ps ++ e :: cs) (hc : ∀ d ∈ cm, d.kind.isHidden = true)
    (hp : ∀ p ∈ ps, p.kind = .actionContent) (he : e.kind = .endAction) :
    cm = [] ∧ ∃ pts et us', us = pts ++ et :: us' ∧ pts.map Token.segment = ps ∧ et.segment = e ∧
      commentsOf (s.hiddenAfter et.index) ++ s.coming us' = cs := by
  induction ps generalizing cm us with
  | nil =>
    obtain ⟨hcm, et, us', rfl, het, hrest⟩ := coming_cons_inv h hc (by rw [he]; rfl)
    exact ⟨hcm, [], et, us', rfl, rfl, het, hrest⟩
  | cons p ps ih =>
    rw [List.forall_mem_cons] at hp
    obtain ⟨hcm, t, us', rfl, ht, hrest⟩ := coming_cons_inv h hc (by rw [hp.1]; rfl)
    obtain ⟨-, pts, et, us'', rfl, hpts, het, hrest'⟩ :=
      ih hrest isHidden_of_mem_commentsOf hp.2
    exact ⟨hcm, t :: pts, et, us'', rfl, by rw [List.map_cons, ht, hpts], het, hrest'⟩

/-- **Tokens of segments that resemble each other are read alike.** The induction is on the
resemblance, with the comments that have come already kept apart from the tokens. -/
theorem alike_of_coming {s s' : Stream} {cm cm' : List Segment} {us us' : List Token}
    (h : Resembles (cm ++ s.coming us) (cm' ++ s'.coming us'))
    (hc : ∀ c ∈ cm, c.kind.isHidden = true) (hc' : ∀ c ∈ cm', c.kind.isHidden = true)
    (hu : ∀ t ∈ us, t ∈ s.toList ∧ t.isHidden = false)
    (hu' : ∀ t ∈ us', t ∈ s'.toList ∧ t.isHidden = false) :
    cm' = cm ∧ Alike (Corresponds s s') (SameLayout s s') us us' := by
  generalize hW : cm ++ s.coming us = W at h
  generalize hW' : cm' ++ s'.coming us' = W' at h
  induction h generalizing cm cm' us us' with
  | nil =>
    obtain ⟨rfl, hcome⟩ := List.append_eq_nil_iff.1 hW
    obtain ⟨rfl, hcome'⟩ := List.append_eq_nil_iff.1 hW'
    have hnil : ∀ {s : Stream} {us : List Token}, s.coming us = [] → us = [] := by
      intro s us h
      cases us with
      | nil => rfl
      | cons t us => exact absurd h (by simp)
    rw [hnil hcome, hnil hcome']
    exact ⟨rfl, .nil⟩
  | @cons c cs cs' hp h ih =>
    cases hm : c.kind.isHidden with
    | true =>
      -- a comment is one of those that come before the tokens, on both sides
      obtain ⟨cm, rfl, hrest⟩ := Stream.coming_hidden_inv hW (fun t ht ↦ (hu t ht).2) hm
      obtain ⟨cm', rfl, hrest'⟩ := Stream.coming_hidden_inv hW' (fun t ht ↦ (hu' t ht).2) hm
      obtain ⟨rfl, ha⟩ := ih (List.forall_mem_cons.1 hc).2 (List.forall_mem_cons.1 hc').2 hu hu'
        hrest hrest'
      exact ⟨rfl, ha⟩
    | false =>
      -- a main segment is the next token, and the comments after it take the place of those before
      obtain ⟨rfl, t, us, rfl, ht, hrest⟩ := Stream.coming_cons_inv hW hc hm
      obtain ⟨rfl, t', us', rfl, ht', hrest'⟩ := Stream.coming_cons_inv hW' hc' hm
      rw [List.forall_mem_cons] at hu hu'
      obtain ⟨hf, ha⟩ := ih isHidden_of_mem_commentsOf isHidden_of_mem_commentsOf hu.2 hu'.2 hrest
        hrest'
      have hk : t.kind = c.kind := congrArg Segment.kind ht
      have hk' : t'.kind = c.kind := congrArg Segment.kind ht'
      refine ⟨rfl, .cons (by rw [hk]; exact hp) (hk'.trans hk.symm) ⟨hu.1.1, hu'.1.1, ?_⟩ ha⟩
      rw [Stream.beat, Stream.beat, ht, ht', hf]
  | @action b e ps ps' cs cs' hb hp hp' he hq h ih =>
    -- the opening brace, the pieces and the closing brace are found one after the other
    have hbm : b.kind.isHidden = false := by rw [hb]; rfl
    obtain ⟨rfl, bt, us, rfl, hbt, hrest⟩ := Stream.coming_cons_inv hW hc hbm
    obtain ⟨rfl, bt', us', rfl, hbt', hrest'⟩ := Stream.coming_cons_inv hW' hc' hbm
    obtain ⟨hq₁, pts, et, vs, rfl, rfl, rfl, hlast⟩ :=
      Stream.coming_pieces_inv hrest isHidden_of_mem_commentsOf hp he
    obtain ⟨hq₂, pts', et', vs', rfl, rfl, het', hlast'⟩ :=
      Stream.coming_pieces_inv hrest' isHidden_of_mem_commentsOf hp' he
    simp only [List.forall_mem_cons, List.forall_mem_append] at hu hu'
    obtain ⟨hf, ha⟩ := ih isHidden_of_mem_commentsOf isHidden_of_mem_commentsOf hu.2.2.2 hu'.2.2.2
      hlast hlast'
    refine ⟨rfl, ?_⟩
    have hact : IsAction bt pts et :=
      ⟨(congrArg Segment.kind hbt).trans hb, fun c hm ↦ hp _ (List.mem_map_of_mem hm), he⟩
    have hact' : IsAction bt' pts' et' :=
      ⟨(congrArg Segment.kind hbt').trans hb, fun c hm ↦ hp' _ (List.mem_map_of_mem hm),
        (congrArg Segment.kind het').trans he⟩
    -- no comment stands inside the action, so both braces have the same beats
    have hR : Corresponds s s' bt bt' := ⟨hu.1.1, hu'.1.1, by
      rw [Stream.beat, Stream.beat, hbt, hbt', hq₁, hq₂]⟩
    have hR' : Corresponds s s' et et' := ⟨hu.2.2.1.1, hu'.2.2.1.1, by
      rw [Stream.beat, Stream.beat, het', hf]⟩
    have hC : SameLayout s s' pts pts' :=
      ⟨fun c hm ↦ (hu.2.1 c hm).1, fun c hm ↦ (hu'.2.1 c hm).1, hq⟩
    have hall := Alike.action hact hact' hR hC hR' ha
    simpa using hall

/-- **The main tokens of streams that resemble each other are read alike**, and the same comments
come before them. -/
theorem alike_of_resembles {s s' : Stream}
    (h : Resembles (Segment.visible (s.toList.map Token.segment))
      (Segment.visible (s'.toList.map Token.segment))) :
    commentsOf (s'.toList.takeWhile (·.isHidden)) = commentsOf (s.toList.takeWhile (·.isHidden)) ∧
      Alike (Corresponds s s') (SameLayout s s') s.mainTokens s'.mainTokens := by
  have hmain : ∀ (s : Stream), ∀ t ∈ s.mainTokens, t ∈ s.toList ∧ t.isHidden = false := by
    intro s t ht
    obtain ⟨hm, hh⟩ := List.mem_filter.1 ht
    exact ⟨hm, by simpa using hh⟩
  rw [← Stream.coming_rest (List.nil_append s.toList).symm,
    ← Stream.coming_rest (List.nil_append s'.toList).symm] at h
  exact alike_of_coming h isHidden_of_mem_commentsOf isHidden_of_mem_commentsOf (hmain s) (hmain s')

/-! ### Walks over trees that match -/

/-- Trees that match stand over tokens, and if one of them over none, so does the other. -/
theorem Matched.exists_over {R : Token → Token → Prop} {C : List Token → List Token → Prop}
    {ts ts' : List Tree} (h : Matched R C ts ts') :
    ∃ us us', Over us ts ∧ Over us' ts' ∧ us'.isEmpty = us.isEmpty := by
  induction h with
  | nil => exact ⟨[], [], .nil, .nil, rfl⟩
  | @leaf t t' _ _ _ _ ih =>
    obtain ⟨us, us', hu, hu', -⟩ := ih
    exact ⟨t :: us, t' :: us', .leaf hu, .leaf hu', rfl⟩
  | @stray t t' _ _ _ _ ih =>
    obtain ⟨us, us', hu, hu', -⟩ := ih
    exact ⟨t :: us, t' :: us', .stray hu, .stray hu', rfl⟩
  | @action b b' e e' cs cs' _ _ _ _ _ _ _ _ ih =>
    obtain ⟨us, us', hu, hu', -⟩ := ih
    exact ⟨_, _, .node (.leaves (b :: (cs ++ [e]))) hu, .node (.leaves (b' :: (cs' ++ [e']))) hu',
      rfl⟩
  | node _ _ ih ih' =>
    obtain ⟨us, us', hu, hu', he⟩ := ih
    obtain ⟨vs, vs', hv, hv', he'⟩ := ih'
    refine ⟨us ++ vs, us' ++ vs', .node hu hv, .node hu' hv', ?_⟩
    have happ : ∀ us vs : List Token, (us ++ vs).isEmpty = (us.isEmpty && vs.isEmpty) := by
      intro us vs
      cases us <;> rfl
    rw [happ, happ, he, he']

/-- Whether a node covers a token is the same on both sides. -/
theorem Matched.isSome_spanOf? {R : Token → Token → Prop} {C : List Token → List Token → Prop}
    {ts ts' : List Tree} (h : Matched R C ts ts') :
    (Tree.spanOf? ts').isSome = (Tree.spanOf? ts).isSome := by
  obtain ⟨us, us', hu, hu', he⟩ := h.exists_over
  rw [hu.isSome_spanOf?, hu'.isSome_spanOf?, he]

/-- **Trees that match are laid out in the same way.** Leaves have the same beats; an action is laid
out as a whole, and its pieces have the same strokes at any depth. -/
theorem play_matched {s s' : Stream} (hs : Legible s) (hs' : Legible s') {ts ts' : List Tree}
    (h : Matched (Corresponds s s') (SameLayout s s') ts ts') (r : Rules) (p : Page) :
    p.play r (Tree.beatsAll s' ts') = p.play r (Tree.beatsAll s ts) := by
  induction h generalizing p with
  | nil => rfl
  | leaf ht _ ih | stray ht _ ih =>
    rw [Tree.beatsAll, Tree.beatsAll, Tree.beats, Tree.beats, Stream.get?_of_mem ht.mem,
      Stream.get?_of_mem ht.mem', Page.play_append, Page.play_append, ih]
    simp [ht.beat]
  | @action b b' e e' cs cs' ts ts' ha ha' hb hc he _ ih =>
    have hm : ∀ t ∈ b :: (cs ++ [e]), t ∈ s.toList := by
      simp only [List.forall_mem_cons, List.forall_mem_append]
      exact ⟨hb.mem, hc.mem, he.mem, by simp⟩
    have hm' : ∀ t ∈ b' :: (cs' ++ [e']), t ∈ s'.toList := by
      simp only [List.forall_mem_cons, List.forall_mem_append]
      exact ⟨hb.mem', hc.mem', he.mem', by simp⟩
    have hkinds : ∀ {cs : List Token}, (∀ c ∈ cs, c.kind = .actionContent) →
        ∀ c ∈ cs.map Token.segment, c.kind = .actionContent := by
      intro cs hk c hm
      obtain ⟨t, ht, rfl⟩ := List.mem_map.1 hm
      exact hk t ht
    obtain ⟨hbs, -⟩ := Beat.leaf.inj hb.beat
    obtain ⟨hes, hef⟩ := Beat.leaf.inj he.beat
    -- the pieces matter only through their strokes
    have hwith : ∀ (p : Page) (following : List Segment),
        p.withAction b.segment (cs'.map Token.segment) e.segment following =
          p.withAction b.segment (cs.map Token.segment) e.segment following := by
      intro p following
      rw [Page.withAction, Page.withAction, hc.strokes]
    rw [Tree.beatsAll, Tree.beatsAll, Page.play_append, Page.play_append, ih,
      hs.beats_actionTree hm ha.opening ha.content,
      hs'.beats_actionTree hm' ha'.opening ha'.content,
      hbs, hes, hef]
    have hbseg := hs.beginAction b hb.mem ha.opening
    have heseg := hs.endAction e he.mem ha.closing
    rw [Page.play_action r p hbseg (hkinds ha.content) heseg,
      Page.play_action r p hbseg (hkinds ha'.content) heseg, hwith]
  | @node kind ts ts' us us' h h' ih ih' =>
    -- a node covers a token on both sides, or on neither
    rw [Tree.beatsAll, Tree.beatsAll, Tree.ofChildren, Tree.ofChildren, Tree.beats, Tree.beats,
      h.isSome_spanOf?]
    simp only [Page.play_append, Page.play_cons, Page.play_nil, ih, ih']

/-- The same page for trees that match, with the same comments before them. -/
theorem ofTree_matched {s s' : Stream} (hs : Legible s) (hs' : Legible s')
    (hc : commentsOf (s'.toList.takeWhile (·.isHidden)) =
      commentsOf (s.toList.takeWhile (·.isHidden))) {tree tree' : Tree}
    (h : Matched (Corresponds s s') (SameLayout s s') [tree] [tree']) (r : Rules) :
    Page.ofTree r s' tree' = Page.ofTree r s tree := by
  have hplay := play_matched hs hs' h r { comments := commentsOf (s.toList.takeWhile (·.isHidden)) }
  simp only [Tree.beatsAll, List.append_nil] at hplay
  rw [Page.ofTree, Page.ofTree, hc, hplay]

/-- **A layout is its own layout**, if nothing is reported about the source and its actions hold no
quote without a partner. -/
theorem format_idempotent {width : Nat} {source : String} {out : Formatted}
    (h : format (Rules.indented width) source = .ok out) (hd : out.diagnostics = [])
    (hq : ∀ t ∈ (tokenize source).toList, t.segment.isLoneQuote = false) :
    ∃ out', format (Rules.indented width) out.rendered = .ok out' ∧
      out'.rendered = out.rendered := by
  obtain ⟨tree, p, hp, hpage, htext, -, -⟩ := exists_reread_of_format h hd hq
  obtain ⟨hc, halike⟩ := alike_of_resembles (resembles_of_format h hd hq)
  obtain ⟨tree', hr, hmatch⟩ := halike.readGrammar (parse_eq_ok_iff.1 hp)
  have hp' := parse_eq_ok_iff.2 hr
  refine ⟨_, format_eq_ok_iff.2 ⟨tree', hp', rfl⟩, String.toList_inj.1 ?_⟩
  rw [rendered_ofTree (Rules.check_indented width) (derives_of_parse hp').over,
    ofTree_matched (legible_tokenize source) (legible_tokenize out.rendered) hc hmatch, hpage,
    htext]
  rfl

/-- An action whose line is broken, laid out twice. -/
theorem broken_action_is_laid_out_once :
    ∃ out out', format (Rules.indented 3) "grammar T;\na : \x7bx; 'y' // c\n /d\x7d ;" = .ok out ∧
      out.rendered = "grammar T;\n\na\n   :\x7bx;\n   'y' // c\n /d\x7d\n   ;\n" ∧
      format (Rules.indented 3) out.rendered = .ok out' ∧ out'.rendered = out.rendered := by
  have ht : formatsTo (Rules.indented 3) "grammar T;\na : \x7bx; 'y' // c\n /d\x7d ;" (fun out ↦
      out.rendered == "grammar T;\n\na\n   :\x7bx;\n   'y' // c\n /d\x7d\n   ;\n" &&
        out.diagnostics.isEmpty) = true := by
    decide +kernel
  have hq : ∀ t ∈ (tokenize "grammar T;\na : \x7bx; 'y' // c\n /d\x7d ;").toList,
      t.segment.isLoneQuote = false := by
    decide +kernel
  obtain ⟨out, hf, he⟩ := exists_of_formatsTo ht
  rw [Bool.and_eq_true_iff, beq_iff_eq, List.isEmpty_iff] at he
  obtain ⟨out', hf', hout⟩ := format_idempotent hf he.2 hq
  exact ⟨out, out', hf, he.1, hf', hout⟩

/-- A quote without a partner gets one, because the line end between them is taken away. -/
theorem lone_quote_is_laid_out_anew :
    ∃ out out', format Rules.standard "grammar T;\na : \x7b'\x7d\n 'b' ;" = .ok out ∧
      out.diagnostics = [] ∧ out.rendered = "grammar T;\n\na\n   :\x7b'\x7d 'b'\n   ;\n" ∧
      format Rules.standard out.rendered = .ok out' ∧
      out'.rendered = "grammar T;\na : \x7b '\x7d ' b ' \n      ; \n\n" := by
  have ht : formatsTo Rules.standard "grammar T;\na : \x7b'\x7d\n 'b' ;" (fun out ↦
      out.diagnostics.isEmpty &&
        out.rendered == "grammar T;\n\na\n   :\x7b'\x7d 'b'\n   ;\n") = true := by
    decide +kernel
  have ht' : formatsTo Rules.standard "grammar T;\n\na\n   :\x7b'\x7d 'b'\n   ;\n"
      (·.rendered == "grammar T;\na : \x7b '\x7d ' b ' \n      ; \n\n") = true := by
    decide +kernel
  obtain ⟨out, hf, he⟩ := exists_of_formatsTo ht
  obtain ⟨out', hf', he'⟩ := exists_of_formatsTo ht'
  rw [Bool.and_eq_true_iff, beq_iff_eq, List.isEmpty_iff] at he
  exact ⟨out, out', hf, he.1, he.2, by rw [he.2]; exact hf', beq_iff_eq.1 he'⟩

end GrammarLayout
