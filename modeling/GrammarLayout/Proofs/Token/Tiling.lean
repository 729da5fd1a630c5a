import GrammarLayout.Proofs.Token.Tokens
import Mathlib.Data.String.Basic

/-!
# Tokens tile their source

No byte of a source is lost, and none is counted twice: the tokens of a source cover it from its
first byte to its last one, each with the text that stands there (`tokenize_tiles`). Places count
bytes of the encoded source, while segments are found character by character; so a place is a
boundary between characters because it is the length of a text (`isValid_byteLength`), and the text
between two such places is a slice of the source (`extract_byteLength`).

A token knows its line from the segments before it. That is the line of its first byte, which is
said of the source alone (`lineAtByte`).
-/

namespace GrammarLayout

/-! ### Slices of a source -/

theorem byteLength_eq_utf8Len (cs : List Char) : byteLength cs = String.utf8Len cs := by
  induction cs with
  | nil => rfl
  | cons c cs ih => rw [byteLength_cons, String.utf8Len_cons, ih, Nat.add_comm]

theorem utf8ByteSize_ofList (cs : List Char) : (String.ofList cs).utf8ByteSize = byteLength cs := by
  rw [byteLength_eq_utf8Len, ← String.byteIdx_rawEndPos, String.rawEndPos_ofList]

theorem byteLength_pos {cs : List Char} (h : cs ≠ []) : 0 < byteLength cs := by
  cases cs with
  | nil => exact absurd rfl h
  | cons c cs =>
    have hc := c.utf8Size_pos
    rw [byteLength_cons]
    omega

/-- The length of a text at the start of a source is a boundary between characters. -/
theorem isValid_byteLength (pre post : List Char) :
    String.Pos.Raw.IsValid (String.ofList (pre ++ post)) ⟨byteLength pre⟩ := by
  refine String.Pos.Raw.isValid_iff_exists_append.2
    ⟨String.ofList pre, String.ofList post, String.ofList_append, ?_⟩
  rw [String.rawEndPos_ofList, byteLength_eq_utf8Len]

/-- What stands between two boundaries is a slice of the source. -/
theorem extract_byteLength (pre mid post : List Char) :
    String.Pos.Raw.extract (String.ofList (pre ++ (mid ++ post))) ⟨byteLength pre⟩
      ⟨byteLength pre + byteLength mid⟩ = String.ofList mid := by
  rw [String.Pos.Raw.extract]
  split
  · rename_i hle
    have hn : mid = [] := by
      by_contra hne
      have hpos := byteLength_pos hne
      simp only [ge_iff_le] at hle
      omega
    rw [hn]
  · have hstart := String.Pos.Raw.extract.go₁_append_right pre (mid ++ post) 0 (byteLength pre)
      ⟨byteLength pre + byteLength mid⟩ (by rw [byteLength_eq_utf8Len]; rfl)
    have hstop := String.Pos.Raw.extract.go₂_append_left mid post (byteLength pre)
      (byteLength pre + byteLength mid) (by rw [byteLength_eq_utf8Len mid, Nat.add_comm])
    rw [String.toList_ofList, show (0 : String.Pos.Raw) = ⟨0⟩ from rfl, hstart, hstop]

/-- The text between two bytes of a source. There is none unless both are boundaries between
characters and the second is not before the first: a program that asks for it then stops. -/
def slice? (source : String) (start stop : Nat) : Option (List Char) :=
  if start ≤ stop ∧ String.Pos.Raw.IsValid source ⟨start⟩ ∧ String.Pos.Raw.IsValid source ⟨stop⟩ then
    some (String.Pos.Raw.extract source ⟨start⟩ ⟨stop⟩).toList
  else none

/-- A boundary between characters splits the source. -/
theorem exists_of_isValid {source : String} {offset : Nat}
    (h : String.Pos.Raw.IsValid source ⟨offset⟩) :
    ∃ pre post, source.toList = pre ++ post ∧ offset = byteLength pre := by
  obtain ⟨s₁, s₂, rfl, hp⟩ := String.Pos.Raw.isValid_iff_exists_append.1 h
  refine ⟨s₁.toList, s₂.toList, String.toList_append, ?_⟩
  rw [← utf8ByteSize_ofList, String.ofList_toList]
  exact congrArg String.Pos.Raw.byteIdx hp

/-- **Slices are the middle parts of a source.** -/
theorem slice?_eq_some_iff {source : String} {start stop : Nat} {mid : List Char} :
    slice? source start stop = some mid ↔
      ∃ pre post, source.toList = pre ++ (mid ++ post) ∧ start = byteLength pre ∧
        stop = byteLength pre + byteLength mid := by
  constructor
  · intro h
    unfold slice? at h
    split at h
    · rename_i hv
      obtain ⟨hle, hstart, hstop⟩ := hv
      obtain ⟨pre, post, hsrc, rfl⟩ := exists_of_isValid hstart
      obtain ⟨pre', post', hsrc', rfl⟩ := exists_of_isValid hstop
      -- the shorter of the two texts before a boundary is a part of the other
      obtain ⟨cs, rfl, rfl⟩ : ∃ cs, pre' = pre ++ cs ∧ post = cs ++ post' := by
        rcases List.append_eq_append_iff.1 (hsrc.symm.trans hsrc') with h | ⟨cs, rfl, rfl⟩
        · exact h
        · rw [byteLength_append] at hle
          have hcs : cs = [] := by
            by_contra hne
            have := byteLength_pos hne
            omega
          exact ⟨[], by simp [hcs], by simp [hcs]⟩
      have hmid : cs = mid := by
        rw [← String.ofList_toList (s := source), hsrc, byteLength_append, extract_byteLength,
          String.toList_ofList] at h
        exact Option.some.inj h
      exact ⟨pre, post', by rw [hsrc, hmid], rfl, by rw [byteLength_append, hmid]⟩
    · exact absurd h (by simp)
  · rintro ⟨pre, post, hsrc, rfl, rfl⟩
    have hs : source = String.ofList (pre ++ (mid ++ post)) := by
      rw [← hsrc, String.ofList_toList]
    have hstop := isValid_byteLength (pre ++ mid) post
    rw [byteLength_append, List.append_assoc] at hstop
    rw [hs, slice?, if_pos ⟨Nat.le_add_right _ _, isValid_byteLength pre _, hstop⟩,
      extract_byteLength, String.toList_ofList]

/-! ### Tilings -/

/-- The line of a byte of a source, counted from one: line feeds before it end lines. -/
def lineAtByte (source : String) (offset : Nat) : Nat :=
  1 + (String.Pos.Raw.extract source 0 ⟨offset⟩).toList.count '\n'

/-- Tokens that cover the bytes from `start` up to `stop`, one after the other. -/
def Tiles : (start stop : Nat) → List Token → Prop
  | start, stop, [] => start = stop
  | start, stop, t :: ts => t.start = start ∧ Tiles t.stop stop ts

/-- A token stands in a source: it covers some bytes, from one boundary between characters to
another, and its text is what stands there. -/
structure Token.StandsIn (source : String) (t : Token) : Prop where
  /-- The first byte is the start of a character. -/
  start_valid : String.Pos.Raw.IsValid source ⟨t.start⟩
  /-- The byte after the last one is the start of a character, or the end. -/
  stop_valid : String.Pos.Raw.IsValid source ⟨t.stop⟩
  /-- Some byte is covered. -/
  start_lt_stop : t.start < t.stop
  /-- The text is a slice of the source. -/
  text_eq : t.text = String.Pos.Raw.extract source ⟨t.start⟩ ⟨t.stop⟩

/-- Tokens cover a source from the byte `start` on, and a marker at its end covers nothing. -/
structure Tiling (source : String) (start : Nat) (front : List Token) (last : Token) : Prop where
  /-- The last token is the end marker. -/
  last_eof : last.kind = .eof
  /-- It stands at the end of the source. -/
  last_span : last.start = source.utf8ByteSize ∧ last.stop = source.utf8ByteSize
  /-- No other token is an end marker. -/
  front_ne_eof : ∀ t ∈ front, t.kind ≠ .eof
  /-- The other tokens cover the source without gap or overlap. -/
  tiles : Tiles start source.utf8ByteSize front
  /-- Each of them has the text that stands at its place. -/
  standsIn : ∀ t ∈ front, t.StandsIn source
  /-- Every token knows the line of its first byte. -/
  line_eq : ∀ t ∈ front ++ [last], t.line = lineAtByte source t.start

/-- Tokens numbered from `k` on. -/
def numberedFrom (k : Nat) : List Token → List Token
  | [] => []
  | t :: ts => { t with index := k } :: numberedFrom (k + 1) ts

theorem mapIdx_eq_numberedFrom (k : Nat) (ts : List Token) :
    ts.mapIdx (fun i t ↦ { t with index := i + k }) = numberedFrom k ts := by
  induction ts generalizing k with
  | nil => rfl
  | cons t ts ih =>
    rw [List.mapIdx_cons, numberedFrom, ← ih (k + 1), Nat.zero_add]
    simp only [Nat.add_assoc, Nat.add_comm 1]

theorem toList_tokenize (source : String) :
    (tokenize source).toList =
      numberedFrom 0 (placeSegments 0 1 (Segment.ofChars none source.toList)) := by
  rw [tokenize, Stream.toList, Stream.ofTokens, Array.toList_mapIdx, ← mapIdx_eq_numberedFrom]
  rfl

theorem lineAtByte_byteLength (pre post : List Char) :
    lineAtByte (String.ofList (pre ++ post)) (byteLength pre) = 1 + pre.count '\n' := by
  have h := extract_byteLength [] pre post
  rw [List.nil_append, byteLength_nil, Nat.zero_add] at h
  rw [lineAtByte, show (0 : String.Pos.Raw) = ⟨0⟩ from rfl, h, String.toList_ofList]

/-- **Segments are placed where they stand**, if `pre` stands before them: the tokens after `pre`
tile the rest of the source, and their texts make up that rest. -/
theorem tiling_placeSegments (pre : List Char) (k : Nat) {ss : List Segment}
    (hs : ∀ s ∈ ss, s.text ≠ [] ∧ s.kind ≠ .eof) :
    ∃ front last,
      numberedFrom k (placeSegments (byteLength pre) (1 + pre.count '\n') ss) = front ++ [last] ∧
      Tiling (String.ofList (pre ++ ss.flatMap Segment.text)) (byteLength pre) front last ∧
      front.flatMap (·.text.toList) = ss.flatMap Segment.text := by
  induction ss generalizing pre k with
  | nil =>
    have hlen : (String.ofList (pre ++ List.flatMap Segment.text [])).utf8ByteSize =
        byteLength pre := by
      rw [utf8ByteSize_ofList, List.flatMap_nil, List.append_nil]
    refine ⟨[], _, rfl, ⟨rfl, ⟨hlen.symm, hlen.symm⟩, by simp, hlen.symm, by simp, ?_⟩, rfl⟩
    intro t ht
    obtain rfl := List.mem_singleton.1 ht
    exact (lineAtByte_byteLength pre _).symm
  | cons s ss ih =>
    rw [List.forall_mem_cons] at hs
    obtain ⟨front, last, hl, ht, htext⟩ := ih (pre ++ s.text) (k + 1) hs.2
    rw [byteLength_append, List.count_append, ← Nat.add_assoc] at hl
    have hsrc : pre ++ s.text ++ ss.flatMap Segment.text =
        pre ++ (s :: ss).flatMap Segment.text := by
      rw [List.flatMap_cons, List.append_assoc]
    rw [hsrc, byteLength_append] at ht
    refine ⟨_ :: front, last, by rw [placeSegments, numberedFrom, hl]; rfl,
      { ht with
        front_ne_eof := List.forall_mem_cons.2 ⟨hs.1.2, ht.front_ne_eof⟩
        tiles := ⟨rfl, ht.tiles⟩
        standsIn := List.forall_mem_cons.2 ⟨?_, ht.standsIn⟩
        line_eq := List.forall_mem_cons.2 ⟨?_, ht.line_eq⟩ }, ?_⟩
    · have hpos := byteLength_pos hs.1.1
      refine ⟨isValid_byteLength pre _, ?_, Nat.lt_add_of_pos_right hpos, ?_⟩
      · have hv := isValid_byteLength (pre ++ s.text) (ss.flatMap Segment.text)
        rwa [hsrc, byteLength_append] at hv
      · rw [List.flatMap_cons]
        exact (extract_byteLength pre s.text _).symm
    · exact (lineAtByte_byteLength pre _).symm
    · rw [List.flatMap_cons, List.flatMap_cons, htext, String.toList_ofList]

/-- **The tokens of a source tile it.** A token's index is its position in the stream. The last
token and no other is the end marker, which stands at the end of the source. The others cover the
source byte by byte, from boundary to boundary, with the text that stands there, so that their texts
make up the source; and every token knows the line of its first byte. -/
theorem tokenize_tiles (source : String) :
    ∃ front last, (tokenize source).toList = front ++ [last] ∧
      (∀ (i : Nat) (t : Token), (tokenize source).toList[i]? = some t → t.index = i) ∧
      Tiling source 0 front last ∧ String.join (front.map (·.text)) = source := by
  have hs : ∀ s ∈ Segment.ofChars none source.toList, s.text ≠ [] ∧ s.kind ≠ .eof := fun s hm ↦
    have hf := Segment.formed_ofChars none source.toList s hm
    ⟨hf.text_ne, hf.ne_eof⟩
  obtain ⟨front, last, hl, ht, htext⟩ := tiling_placeSegments [] 0 hs
  rw [Segment.flatMap_text_ofChars] at ht htext
  rw [List.nil_append, String.ofList_toList] at ht
  refine ⟨front, last, (toList_tokenize source).trans hl, fun i t hi ↦ ?_, ht, ?_⟩
  · obtain ⟨hlt, rfl⟩ := List.getElem?_eq_some_iff.1 hi
    exact (tokenize source).index_eq i (by simpa [Stream.toList] using hlt)
  · rw [← String.toList_inj, String.toList_join, List.flatMap_map]
    exact htext

end GrammarLayout
