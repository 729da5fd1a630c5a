import GrammarLayout.Proofs.Grammar.Bounds
import GrammarLayout.Proofs.Grammar.Recovery
import GrammarLayout.Proofs.Grammar.Modes

/-!
# Recovered regions

What cannot be read is kept in regions. A region is a row of pieces (`Pieces`), each an action or a
token that may be in one, and it has two ways to end (`Region`): with a semicolon, or where the
rules end. The second is what is left when the first fails, and both are attempts on the same
pieces: the greedy repetition does not care which of the two comes after it, so the place at which
no semicolon was found is the place at which the region ends.

A region is told by its own tokens and by what comes after them. Neither depends on what the reader
did before, so all regions of a grammar are found by one induction on the pattern that is read
(`Pattern.findsRegions_read`): the productions only have to form regions by the production for them
(`Pattern.regionsFit`).

The pieces of a region are not told by their own kinds alone: whether the keyword of a mode may be
in a region depends on the two tokens after it, and these may stand behind the region. So pieces are
described before the tokens that follow (`Pieces after`), and lemmas about them carry those along.

`Region` describes a region as it is read, and `Node.IsRegion` as it is seen: leaves, no end of the
input, no semicolon but at the end, no complete mode header, and what follows. The first is what an
induction can prove, the second is what is wanted of it (`Region.isRegion`).
-/

namespace GrammarLayout

/-! ### Pieces -/

/-- Pieces of a region over their tokens, before the tokens `after`. -/
inductive Pieces (after : List Token) : List Token → List Tree → Prop
  /-- No piece. -/
  | nil : Pieces after [] []
  /-- A token that may be in a region. -/
  | stray {t : Token} {vs : List Token} {ts : List Tree} (h : isStray (t :: (vs ++ after)) = true)
      (hp : Pieces after vs ts) : Pieces after (t :: vs) (.stray t.index :: ts)
  /-- An action. -/
  | action {b e : Token} {cs vs : List Token} {ts : List Tree} (hb : b.kind = .beginAction)
      (hc : ∀ c ∈ cs, c.kind = .actionContent) (he : e.kind = .endAction)
      (hp : Pieces after vs ts) : Pieces after (b :: (cs ++ [e]) ++ vs) (actionTree b cs e :: ts)

/-- A region over its tokens, before the tokens `after`. -/
inductive Region (after : List Token) : List Token → List Tree → Prop
  /-- A region that ends with a semicolon. -/
  | closed {e : Token} {vs : List Token} {ts : List Tree} (hp : Pieces (e :: after) vs ts)
      (he : e.kind = .semi) : Region after (vs ++ [e]) (ts ++ [.stray e.index])
  /-- A region that ends where the rules end. -/
  | cut {vs : List Token} {ts : List Tree} (hp : Pieces after vs ts) (hne : vs ≠ [])
      (hend : Pattern.EndsRules after) : Region after vs ts

/-- What may be in a region by itself: neither a semicolon nor the end of the input nor the start of
a complete mode header. -/
theorem isStray_iff {t : Token} {us : List Token} :
    isStray (t :: us) = true ↔ t.kind ≠ .semi ∧ t.kind ≠ .eof ∧ opensMode (t :: us) = false := by
  simp [isStray, and_assoc]

/-- A token among pieces is one of an action, or may be in a region by itself. -/
theorem Pieces.of_token {after vs : List Token} {ts : List Tree} (h : Pieces after vs ts)
    {pre post : List Token} {t : Token} (ht : vs = pre ++ t :: post) :
    isStray (t :: (post ++ after)) = true ∨
      ∃ c ∈ ts, c.kind? = some .actionBlock ∧ t.index ∈ c.leaves := by
  induction h generalizing pre with
  | nil => exact absurd ht (by simp)
  | @stray u vs ts hu _ ih =>
    cases pre with
    | nil =>
      obtain ⟨rfl, rfl⟩ := List.cons.inj ht
      exact .inl hu
    | cons a pre =>
      rcases ih (List.cons.inj ht).2 with hstray | ⟨c, hc, hin⟩
      · exact .inl hstray
      · exact .inr ⟨c, List.mem_cons_of_mem _ hc, hin⟩
  | @action b e cs vs ts _ _ _ _ ih =>
    rcases append_eq_append_cons ht with ⟨bs, hbs, -⟩ | ⟨pre', -, hvs⟩
    · refine .inr ⟨_, List.mem_cons_self, rfl, ?_⟩
      have hleaves := (Over.leaves (b :: (cs ++ [e]))).leavesAll_eq
      rw [actionTree, Tree.ofChildren, Tree.leaves, hleaves, hbs]
      simp
    · rcases ih hvs with hstray | ⟨c, hc, hin⟩
      · exact .inl hstray
      · exact .inr ⟨c, List.mem_cons_of_mem _ hc, hin⟩

/-- Pieces stand over their tokens. -/
theorem Pieces.over {after vs : List Token} {ts : List Tree} (h : Pieces after vs ts) :
    Over vs ts := by
  induction h with
  | nil => exact .nil
  | stray _ _ ih => exact .stray ih
  | action _ _ _ _ ih => exact .node (.leaves _) ih

/-- None of them is the end of the input. -/
theorem Pieces.ne_eof {after vs : List Token} {ts : List Tree} (h : Pieces after vs ts) :
    ∀ t ∈ vs, t.kind ≠ .eof := by
  induction h with
  | nil => simp
  | stray h _ ih => exact List.forall_mem_cons.2 ⟨(isStray_iff.1 h).2.1, ih⟩
  | action hb hc he _ ih =>
    refine List.forall_mem_append.2 ⟨List.forall_mem_cons.2 ⟨by simp [hb], ?_⟩, ih⟩
    exact List.forall_mem_append.2
      ⟨fun c hm ↦ by simp [hc c hm], List.forall_mem_singleton.2 (by simp [he])⟩

/-! ### What a region is -/

section Region

variable {after vs : List Token} {ts : List Tree}

theorem Region.over (h : Region after vs ts) : Over vs ts := by
  cases h with
  | closed hp _ => exact hp.over.append (.stray .nil)
  | cut hp _ _ => exact hp.over

/-- A region is not empty: it has its semicolon, or was not allowed to be empty. -/
theorem Region.ne_nil (h : Region after vs ts) : vs ≠ [] := by
  cases h with
  | closed => simp
  | cut _ hne _ => exact hne

theorem Region.ne_eof (h : Region after vs ts) : ∀ t ∈ vs, t.kind ≠ .eof := by
  cases h with
  | closed hp he =>
    exact List.forall_mem_append.2 ⟨hp.ne_eof, List.forall_mem_singleton.2 (by simp [he])⟩
  | cut hp _ _ => exact hp.ne_eof

/-- Without a semicolon at its end, a region ends where the rules end. -/
theorem Region.endsRules (h : Region after vs ts) {t : Token} (ht : t ∈ vs.getLast?)
    (hs : t.kind ≠ .semi) : Pattern.EndsRules after := by
  cases h with
  | closed _ he =>
    rw [List.getLast?_concat, Option.mem_some_iff] at ht
    exact absurd (ht ▸ he) hs
  | cut _ _ hend => exact hend

/-- A token of a region is one of an action, or is the semicolon at its end, or may be in a region
by itself. -/
theorem Region.of_token (h : Region after vs ts) {pre post : List Token} {t : Token}
    (ht : vs = pre ++ t :: post) :
    isStray (t :: (post ++ after)) = true ∨ t.kind = .semi ∧ post = [] ∨
      ∃ c ∈ ts, c.kind? = some .actionBlock ∧ t.index ∈ c.leaves := by
  cases h with
  | @closed e vs ts hp he =>
    rcases append_eq_append_cons ht with ⟨vs', hvs, rfl⟩ | ⟨pre', rfl, hlast⟩
    · rcases hp.of_token hvs with hstray | ⟨c, hc, hin⟩
      · exact .inl (by simpa using hstray)
      · exact .inr (.inr ⟨c, List.mem_append_left _ hc, hin⟩)
    · obtain ⟨-, hlast⟩ := List.append_eq_singleton_iff.1 hlast.symm |>.resolve_right (by simp)
      obtain ⟨rfl, rfl⟩ := List.cons.inj hlast
      exact .inr (.inl ⟨he, rfl⟩)
  | cut hp _ _ => exact (hp.of_token ht).imp_right .inr

end Region

/-- What there is to know of a region over the tokens `vs`, before the tokens `after`, if it is not
asked how it is read. -/
structure Node.IsRegion (n : Node) (vs after : List Token) : Prop where
  /-- The tokens are those of the leaves. -/
  leaves : Tree.leavesAll n.children = vs.map Token.index
  /-- There is at least one. -/
  ne_nil : vs ≠ []
  /-- Outside its actions there is no end of the input, no semicolon but at the end, and no keyword
  that begins a complete mode header. -/
  outside : ∀ pre t post, vs = pre ++ t :: post →
    (∀ c ∈ n.children, c.kind? = some .actionBlock → t.index ∉ c.leaves) →
      t.kind ≠ .eof ∧ (t.kind = .semi → post = []) ∧ opensMode (t :: (post ++ after)) = false
  /-- Unless it ends with a semicolon, the end of the input or a complete mode header follows. -/
  stops : ∀ t ∈ vs.getLast?, t.kind ≠ .semi →
    (∃ u ∈ after.head?, u.kind = .eof) ∨ opensMode after = true

/-- What is read as a region is one. -/
theorem Region.isRegion {n : Node} {after vs : List Token} (h : Region after vs n.children)
    (hne : after ≠ []) : n.IsRegion vs after where
  leaves := h.over.leavesAll_eq
  ne_nil := h.ne_nil
  outside pre t post ht hact := by
    rcases h.of_token ht with hstray | ⟨hsemi, rfl⟩ | ⟨c, hc, hk, hin⟩
    · obtain ⟨hsemi, heof, hmode⟩ := isStray_iff.1 hstray
      exact ⟨heof, fun hs ↦ absurd hs hsemi, hmode⟩
    · exact ⟨by simp [hsemi], fun _ ↦ rfl, opensMode_of_kind_ne (by simp [hsemi]) _⟩
    · exact absurd hin (hact c hc hk)
  stops _ ht hs := (h.endsRules ht hs).resolve_left hne

namespace Pattern

variable {limit : Nat} {sub : Nest → Reader}

/-! ### Reading regions -/

/-- A piece is an action or a token that may be in a region, and is one tree. -/
theorem pieces_of_read_strayPiece (hsub : ∀ n, Finds (.nested n) (sub n)) {us rest : List Token}
    {ts : List Tree} (h : Production.strayPiece.read limit sub us = some (ts, rest)) :
    ∃ vs, vs ≠ [] ∧ us = vs ++ rest ∧
      ∀ {after vs' ts'}, rest = vs' ++ after → Pieces after vs' ts' →
        Pieces after (vs ++ vs') (ts ++ ts') := by
  cases ha : Production.actionBlock.read limit sub us with
  | some r =>
    obtain ⟨ts₁, rest₁⟩ := r
    rw [Production.strayPiece, read_alt_of_some ha] at h
    obtain ⟨rfl, rfl⟩ := Prod.mk.inj (Option.some.inj h)
    obtain ⟨vs, rfl, hd⟩ := finds_read hsub _ ha
    obtain ⟨b, cs, e, hb, hc, he, rfl, rfl⟩ := hd.of_actionBlock
    exact ⟨_, by simp, rfl, fun _ hp ↦ .action hb hc he hp⟩
  | none =>
    rw [Production.strayPiece, read_alt_of_none ha] at h
    cases us with
    | nil => exact absurd h (by simp [read])
    | cons t us =>
      simp only [read, Option.ite_none_right_eq_some, Option.some.injEq, Prod.mk.injEq] at h
      obtain ⟨hs, rfl, rfl⟩ := h
      exact ⟨[t], by simp, rfl, fun hrest hp ↦ .stray (hrest ▸ hs) hp⟩

/-- Pieces are read as far as they go. -/
theorem pieces_of_readMany (hsub : ∀ n, Finds (.nested n) (sub n)) {n : Nat} {us rest : List Token}
    {ts : List Tree}
    (h : readMany (Production.strayPiece.read limit sub) n us = (ts, rest)) :
    ∃ vs, us = vs ++ rest ∧ Pieces rest vs ts := by
  induction n generalizing us ts with
  | zero =>
    obtain ⟨rfl, rfl⟩ := Prod.mk.inj h
    exact ⟨[], rfl, .nil⟩
  | succ n ih =>
    rw [readMany] at h
    split at h
    · obtain ⟨rfl, rfl⟩ := Prod.mk.inj h
      exact ⟨[], rfl, .nil⟩
    · rename_i ts₁ rest₁ hround
      obtain ⟨rfl, hrest⟩ := Prod.mk.inj h
      obtain ⟨vs, -, rfl, hadd⟩ := pieces_of_read_strayPiece hsub hround
      obtain ⟨vs', rfl, hp⟩ := ih (Prod.ext rfl hrest)
      exact ⟨vs ++ vs', (List.append_assoc ..).symm, hadd rfl hp⟩

/-- **A region that is read** ends with a semicolon or where the rules end. Of the two attempts the
first one fails only for want of a semicolon, and the second reads one piece and then, by
repetition, the same pieces again. -/
theorem region_of_read (hsub : ∀ n, Finds (.nested n) (sub n)) {us rest : List Token}
    {ts : List Tree} (hl : us.length ≤ limit)
    (h : Production.recovered.read limit sub us = some (ts, rest)) :
    ∃ vs ts', ts = [Tree.ofChildren .recovered ts'] ∧ us = vs ++ rest ∧ Region rest vs ts' := by
  obtain ⟨ts', hbody, rfl⟩ := of_read_node h
  cases hfirst : read limit sub (seq (many Production.strayPiece) strayEnd) us with
  | some r =>
    obtain ⟨ts₁, rest₁⟩ := r
    rw [read_alt_of_some hfirst] at hbody
    obtain ⟨rfl, rfl⟩ := Prod.mk.inj (Option.some.inj hbody)
    obtain ⟨ts₁, rest₁, ts₂, hmany, hend, rfl⟩ := of_read_seq hfirst
    obtain ⟨vs, rfl, hp⟩ := pieces_of_readMany hsub (Option.some.inj hmany)
    cases rest₁ with
    | nil => exact absurd hend (by simp [read])
    | cons e rest₁ =>
      simp only [read, Option.ite_none_right_eq_some, Option.some.injEq, Prod.mk.injEq] at hend
      obtain ⟨he, rfl, rfl⟩ := hend
      exact ⟨vs ++ [e], _, rfl, by simp, .closed hp (by simpa using he)⟩
  | none =>
    rw [read_alt_of_none hfirst] at hbody
    obtain ⟨ts₁, rest₁, ts₂, hpiece, hmany, rfl⟩ := of_read_seq hbody
    have hfinds : Finds Production.strayPiece (Production.strayPiece.read limit sub) :=
      finds_read hsub _
    have hlt := hfinds.length_lt rfl hpiece
    obtain ⟨vs₁, hne, hus, hadd⟩ := pieces_of_read_strayPiece hsub hpiece
    obtain ⟨vs₂, hrest₁, hp⟩ := pieces_of_readMany hsub (Option.some.inj hmany)
    refine ⟨vs₁ ++ vs₂, _, rfl, by rw [hus, hrest₁, List.append_assoc], .cut (hadd hrest₁ hp)
      (by simp [hne]) ?_⟩
    -- the first attempt has come to the same place, and has found no semicolon there
    have hsame : read limit sub (many Production.strayPiece) us = some (ts₁ ++ ts₂, rest) := by
      obtain ⟨n, rfl⟩ := Nat.exists_eq_succ_of_ne_zero (show limit ≠ 0 by omega)
      have hmore := (hfinds.readMany_congr rfl (fun _ _ ↦ rfl) (Nat.le_refl _)
        (show rest₁.length ≤ n by omega) (show rest₁.length ≤ n + 1 by omega)).trans
        (Option.some.inj hmany)
      simp only [read, readMany, hpiece, hmore]
    have hpiece' := hfinds.read_readMany rfl hl
    rw [Option.some.inj hsame] at hpiece'
    have hend : read limit sub strayEnd rest = none := by
      rw [read_seq_of_some hsame] at hfirst
      exact Option.map_eq_none_iff.1 hfirst
    exact endsRules_of_recovered (read_recovered_of_none hpiece' hend)

/-! ### Regions of a grammar -/

/-- Whether regions are formed by the production for them and by no other. -/
def regionsFit : Pattern → Bool
  | token _ | stray | strayEnd | nested _ => true
  | seq p q | alt p q => p.regionsFit && q.regionsFit
  | opt p | many p => p.regionsFit
  | node kind p =>
    if kind = .recovered then node kind p = Production.recovered else p.regionsFit

/-- The productions form regions in no other way. -/
theorem regionsFit_grammarSpec : Production.grammarSpec.regionsFit = true := by decide +kernel

/-- All recovered nodes among the trees are regions of the tokens. The tokens after a region are
given with it, as it may end because of them. -/
def HasRegions (us : List Token) (ts : List Tree) : Prop :=
  ∀ n ∈ Tree.nodesAll ts, n.kind = .recovered →
    ∃ before vs after, us = before ++ (vs ++ after) ∧ Region after vs n.children

theorem hasRegions_nil (us : List Token) : HasRegions us [] :=
  fun _ hn ↦ absurd hn List.not_mem_nil

theorem HasRegions.append_left {us : List Token} {ts : List Tree} (h : HasRegions us ts)
    (pre : List Token) : HasRegions (pre ++ us) ts := by
  intro n hn hk
  obtain ⟨before, vs, after, rfl, hr⟩ := h n hn hk
  exact ⟨pre ++ before, vs, after, (List.append_assoc ..).symm, hr⟩

theorem HasRegions.append {us : List Token} {ts ts' : List Tree} (h : HasRegions us ts)
    (h' : HasRegions us ts') : HasRegions us (ts ++ ts') := by
  intro n hn hk
  rw [Tree.nodesAll_append, List.mem_append] at hn
  exact hn.elim (fun hm ↦ h n hm hk) (fun hm ↦ h' n hm hk)

/-- A node adds itself, if it is a region, to those below it. -/
theorem hasRegions_node {kind : NodeKind} {us : List Token} {ts : List Tree}
    (h : HasRegions us ts) (hr : kind = .recovered →
      ∃ before vs after, us = before ++ (vs ++ after) ∧ Region after vs ts) :
    HasRegions us [Tree.ofChildren kind ts] := by
  intro n hn hk
  rw [Tree.nodesAll_ofChildren, List.mem_cons] at hn
  rcases hn with rfl | hn
  · exact hr hk
  · exact h n hn hk

theorem hasRegions_of_formsNo {p : Pattern} (hp : p.formsNo .recovered = true) {us vs : List Token}
    {ts : List Tree} (h : Derives p vs ts) : HasRegions us ts := fun n hn hk ↦
  absurd hk (h.kind_ne_of_formsNo (formsNo_ofNest (by decide)) hp n hn)

/-- A reader whose recovered nodes are regions, wherever it has at most `k` tokens to read. -/
def FindsRegions (k : Nat) (r : Reader) : Prop :=
  ∀ {us rest : List Token} {ts : List Tree}, us.length ≤ k → r us = some (ts, rest) →
    HasRegions us ts

theorem FindsRegions.readMany {k : Nat} {p : Pattern} {r : Reader} (hr : FindsRegions k r)
    (hf : Finds p r) (n : Nat) {us : List Token} (hl : us.length ≤ k) :
    HasRegions us (readMany r n us).1 := by
  induction n generalizing us with
  | zero => exact hasRegions_nil us
  | succ n ih =>
    rw [GrammarLayout.readMany]
    split
    · exact hasRegions_nil us
    · rename_i ts rest hround
      have hle := hf.length_le hround
      obtain ⟨vs, rfl, -⟩ := hf hround
      exact (hr hl hround).append ((ih (hle.trans hl)).append_left vs)

/-- **All recovered nodes are regions**, whatever pattern is read off whatever tokens. Sub-rules
form none, so the induction does not follow them. -/
theorem findsRegions_read (hsub : ∀ n, Finds (.nested n) (sub n)) (p : Pattern)
    (hp : p.regionsFit = true) : FindsRegions limit (p.read limit sub) := by
  induction p with
  | token | stray | strayEnd | nested =>
    intro us rest ts _ h
    obtain ⟨vs, -, hd⟩ := finds_read hsub _ h
    exact hasRegions_of_formsNo rfl hd
  | seq p q ihp ihq =>
    obtain ⟨hp, hq⟩ := Bool.and_eq_true_iff.1 hp
    intro us rest ts hl h
    obtain ⟨ts₁, rest₁, ts₂, h₁, h₂, rfl⟩ := of_read_seq h
    have hle := Finds.length_le (finds_read hsub p) h₁
    obtain ⟨vs, rfl, -⟩ := finds_read hsub p h₁
    exact (ihp hp hl h₁).append ((ihq hq (hle.trans hl) h₂).append_left vs)
  | alt p q ihp ihq =>
    obtain ⟨hp, hq⟩ := Bool.and_eq_true_iff.1 hp
    intro us rest ts hl h
    cases h₁ : p.read limit sub us with
    | none =>
      rw [read_alt_of_none h₁] at h
      exact ihq hq hl h
    | some r =>
      rw [read_alt_of_some h₁] at h
      exact ihp hp hl (h₁.trans h)
  | opt p ih =>
    intro us rest ts hl h
    rw [read, Option.some.injEq] at h
    cases h₁ : p.read limit sub us with
    | none =>
      rw [h₁] at h
      obtain rfl := (Prod.mk.inj h).1
      exact hasRegions_nil us
    | some r =>
      rw [h₁] at h
      exact ih hp hl (h₁.trans (congrArg some h))
  | many p ih =>
    intro us rest ts hl h
    rw [← (Prod.mk.inj (Option.some.inj h)).1]
    exact FindsRegions.readMany (ih hp) (finds_read hsub p) limit hl
  | node kind p ih =>
    intro us rest ts hl h
    rw [regionsFit] at hp
    split at hp
    · -- a region by its own production, which forms no other region
      rw [of_decide_eq_true hp] at h
      obtain ⟨vs, ts', rfl, rfl, hr⟩ := region_of_read hsub hl h
      obtain ⟨_, -, hd⟩ := finds_read hsub _ h
      obtain ⟨ts'', hts, hbody⟩ := hd.of_node
      obtain rfl := (Tree.node.inj (List.cons.inj hts).1).2.2
      exact hasRegions_node (hasRegions_of_formsNo (by decide +kernel) hbody)
        fun _ ↦ ⟨[], vs, rest, rfl, hr⟩
    · rename_i hk
      obtain ⟨ts', hbody, rfl⟩ := of_read_node h
      exact hasRegions_node (ih hp hl hbody) fun hk' ↦ absurd hk' hk

end Pattern

/-- **The recovered nodes of a tree are regions** of its main tokens. -/
theorem hasRegions_of_parse {s : Stream} {tree : Tree} (h : parse s = .ok tree) :
    Pattern.HasRegions s.mainTokens [tree] :=
  Pattern.findsRegions_read (Pattern.finds_readNest _ _) _ Pattern.regionsFit_grammarSpec
    (Nat.le_refl _) (Pattern.parse_of_readGrammar (parse_eq_ok_iff.1 h))

/-- The regions of a source stand before some token, as none of them takes the end of the input. -/
theorem exists_region_of_parse {source : String} {tree : Tree}
    (h : parse (tokenize source) = .ok tree) {n : Node} (hn : n ∈ tree.findAll .recovered) :
    ∃ before vs after, (tokenize source).mainTokens = before ++ (vs ++ after) ∧
      Region after vs n.children ∧ after ≠ [] := by
  obtain ⟨hn, hk⟩ := List.mem_filter.1 hn
  obtain ⟨before, vs, after, hus, hr⟩ :=
    hasRegions_of_parse h n (by rwa [Tree.nodesAll_singleton]) (beq_iff_eq.1 hk)
  refine ⟨before, vs, after, hus, hr, ?_⟩
  rintro rfl
  obtain ⟨front, last, hmain, -, hlast⟩ := terminated_tokenize source
  rw [hus, List.append_nil] at hmain
  have hmem : last ∈ vs := by
    refine List.mem_of_getLast? ?_
    rw [← List.getLast?_append_of_ne_nil before hr.ne_nil, hmain, List.getLast?_concat]
  exact hr.ne_eof last hmem hlast

end GrammarLayout
