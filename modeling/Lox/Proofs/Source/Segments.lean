import Lox.Proofs.Source.Joined
import Lox.Proofs.Source.Tiling
import Lox.Source.Cursor

/-!
Where the pieces of a text lie. Their bytes follow each other without a gap from the start of the text
to its end, and the items stand at the lines on which their pieces end.
-/

namespace Lox.Source

/-- A piece with the text in front of it. -/
structure Segment where
  before : List Char
  piece : Piece

namespace Segment

def start (s : Segment) : String.Pos.Raw := (String.ofList s.before).rawEndPos

def stop (s : Segment) : String.Pos.Raw := (String.ofList (s.before ++ s.piece.text)).rawEndPos

def line (s : Segment) : Nat := 1 + (s.before ++ s.piece.text).count '\n'

def item? (s : Segment) : Option Item := s.piece.item? s.line

end Segment

def segmentsFrom (before : List Char) : List Piece → List Segment
  | [] => []
  | p :: ps => ⟨before, p⟩ :: segmentsFrom (before ++ p.text) ps

def segments (source : String) : List Segment := segmentsFrom [] (pieces source.toList)

theorem map_piece_segmentsFrom (ps : List Piece) (before : List Char) :
    (segmentsFrom before ps).map Segment.piece = ps := by
  induction ps generalizing before with
  | nil => rfl
  | cons p ps ih => rw [segmentsFrom, List.map_cons, ih]

theorem map_piece_segments (source : String) :
    (segments source).map Segment.piece = pieces source.toList := map_piece_segmentsFrom _ _

/-- Every segment starts where the one in front of it stops. -/
theorem contiguous (ps : List Piece) (before : List Char) :
    (segmentsFrom before ps).map Segment.start ++
        [(String.ofList (before ++ ps.flatMap Piece.text)).rawEndPos] =
      (String.ofList before).rawEndPos :: (segmentsFrom before ps).map Segment.stop := by
  induction ps generalizing before with
  | nil => simp [segmentsFrom]
  | cons p ps ih =>
      have h := ih (before ++ p.text)
      rw [segmentsFrom, List.map_cons, List.map_cons, List.cons_append, List.flatMap_cons,
        ← List.append_assoc, h]
      rfl

/-! ### Bytes -/

theorem bytes_of_char (c : Char) :
    c.toNat ≤ 127 ∧ String.utf8EncodeChar c = [UInt8.ofNat c.toNat] ∨
      127 < c.toNat ∧ ∀ b ∈ String.utf8EncodeChar c, 127 < b.toNat := by
  have hv : c.val.toNat = c.toNat := rfl
  rw [String.utf8EncodeChar.eq_1, hv]
  split
  · exact .inl ⟨by assumption, rfl⟩
  · refine .inr ⟨by omega, ?_⟩
    split
    · simp only [List.mem_cons, List.not_mem_nil, or_false, forall_eq_or_imp, forall_eq,
        UInt8.toNat_ofNat']
      omega
    · split <;>
        simp only [List.mem_cons, List.not_mem_nil, or_false, forall_eq_or_imp, forall_eq,
          UInt8.toNat_ofNat'] <;> omega

theorem le_of_isRecognizable {c : Char} (h : isRecognizable c = true) : c.toNat ≤ 127 := by
  simp only [isRecognizable, isWordPart, Bool.or_eq_true, decide_eq_true_eq, or_assoc] at h
  rcases h with h | rfl | h | rfl | h
  · simp only [Char.isAlphanum, Bool.or_eq_true, isAlpha_iff, isDigit_iff] at h
    omega
  · decide
  · rcases eq_of_isBlank h with rfl | rfl | rfl | rfl <;> decide
  · decide
  · obtain ⟨s, hs⟩ := Option.isSome_iff_exists.mp h
    unfold symbolOf? at hs
    split at hs <;> first | decide | cases hs

/-- The bytes of a character are recognizable just if the character is. -/
theorem isRecognizable_byte {c : Char} {b : UInt8} (h : b ∈ String.utf8EncodeChar c) :
    isRecognizable (Char.ofNat b.toNat) = isRecognizable c := by
  rcases bytes_of_char c with ⟨hc, hbytes⟩ | ⟨hc, hbytes⟩
  · rw [hbytes, List.mem_singleton] at h
    have hb : b.toNat = c.toNat := by rw [h, UInt8.toNat_ofNat']; omega
    rw [hb, Char.ofNat_toNat]
  · have hb := hbytes b h
    have hlt := b.toNat_lt
    have hchar : (Char.ofNat b.toNat).toNat = b.toNat := by
      have hvalid : b.toNat.isValidChar := .inl (by omega)
      rw [Char.ofNat, dif_pos hvalid]
      rfl
    have hleft : isRecognizable (Char.ofNat b.toNat) = false := Bool.eq_false_iff.mpr fun hr => by
      have := le_of_isRecognizable hr
      omega
    have hright : isRecognizable c = false :=
      Bool.eq_false_iff.mpr fun hr => Nat.not_le.mpr hc (le_of_isRecognizable hr)
    rw [hleft, hright]

/-! ### Where two segments meet -/

/-- Of two characters that meet one is recognizable. -/
def Parted (front behind : List Char) : Prop :=
  ∀ c ∈ front.getLast?, ∀ d ∈ behind.head?, isRecognizable c = true ∨ isRecognizable d = true

theorem isRecognizable_of_symbolOf? {c : Char} {s : Symbol} (h : symbolOf? c = some s) :
    isRecognizable c = true := by
  simp [isRecognizable, h]

theorem isRecognizable_of_word {c : Char} (h : isWordPart c = true) : isRecognizable c = true := by
  simp [isRecognizable, h]

theorem isRecognizable_of_wordStart {c : Char} (h : isWordStart c = true) :
    isRecognizable c = true := by
  refine isRecognizable_of_word ?_
  simp only [isWordStart, isWordPart, Char.isAlphanum, Bool.or_eq_true] at h ⊢
  exact h.imp_left .inl

theorem isRecognizable_of_number {c : Char} (h : isNumberPart c = true) :
    isRecognizable c = true := by
  simp only [isNumberPart, Bool.or_eq_true, decide_eq_true_eq] at h
  rcases h with h | rfl
  · exact isRecognizable_of_word (by simp [isWordPart, Char.isAlphanum, h])
  · rfl

theorem Parted.of_recognizable {front behind : List Char}
    (h : ∀ c ∈ front, isRecognizable c = true) : Parted front behind :=
  fun c hc _ _ => .inl (h c (List.mem_of_getLast? hc))

theorem Fits.parted {p : Piece} {behind : List Char} (h : Fits p behind) : Parted p.text behind := by
  cases h with
  | blank h =>
      refine .of_recognizable fun d hd => ?_
      obtain rfl := List.mem_singleton.mp hd
      simp only [List.mem_cons, List.not_mem_nil, or_false] at h
      rcases h with rfl | rfl | rfl | rfl <;> rfl
  | comment _ hb =>
      intro c _ d hd
      obtain rfl : d = '\n' := by simpa using hb d hd
      exact .inr rfl
  | @symbol s _ _ _ =>
      refine .of_recognizable fun d hd => ?_
      have hd : d ∈ s.text.toList := hd
      rcases spelled s with ⟨c, hs, hc⟩ | ⟨c, first, hs, hc, -⟩ <;> rw [hs] at hd
      · rw [List.mem_singleton.mp hd]
        exact isRecognizable_of_symbolOf? hc
      · rcases List.mem_cons.mp hd with rfl | hd
        · exact isRecognizable_of_symbolOf? hc
        · rw [List.mem_singleton.mp hd]
          rfl
  | @keyword k _ _ =>
      refine .of_recognizable fun d hd => ?_
      have hd : d ∈ k.text.toList := hd
      obtain ⟨c, rest, hk, hc, h⟩ := spelled_keyword k
      rw [hk] at hd
      rcases List.mem_cons.mp hd with rfl | hd
      · exact isRecognizable_of_wordStart hc
      · exact isRecognizable_of_word (h d hd)
  | identifier hc h _ _ =>
      refine .of_recognizable fun d hd => ?_
      rcases List.mem_cons.mp hd with rfl | hd
      · exact isRecognizable_of_wordStart hc
      · exact isRecognizable_of_word (h d hd)
  | number hc h _ _ _ | malformed hc h _ _ =>
      refine .of_recognizable fun d hd => ?_
      rcases List.mem_cons.mp hd with rfl | hd
      · exact isRecognizable_of_number (by simp [isNumberPart, hc])
      · exact isRecognizable_of_number (h d hd)
  | @string body _ _ =>
      intro c hc _ _
      have hlast : ('"' :: body ++ ['"']).getLast? = some '"' := List.getLast?_concat
      cases hlast.symm.trans hc
      exact .inl rfl
  | unexpected _ hb => exact fun _ _ d hd => .inr ((Bool.not_eq_false' _).mp (hb d hd))
  | unterminated _ => exact fun _ _ _ => nofun

theorem Fits.ne_nil {p : Piece} {behind : List Char} (h : Fits p behind) : p.text ≠ [] := by
  obtain ⟨c, rest, htext, -⟩ := h.cut
  rw [htext]
  exact List.cons_ne_nil c rest

/-- The piece stands in the text at its place, with nothing in front of it or behind it that it
should go on into. -/
def Segment.Lies (s : Segment) (text : List Char) : Prop :=
  ∃ behind, text = s.before ++ s.piece.text ++ behind ∧ Fits s.piece behind ∧
    Parted s.before s.piece.text

theorem lies_of_mem {ps : List Piece} {text : List Char} (h : Tiles ps text) {before : List Char}
    (hp : Parted before text) {s : Segment} (hs : s ∈ segmentsFrom before ps) :
    s.Lies (before ++ text) := by
  induction h generalizing before with
  | nil => cases hs
  | @cons p ps behind hf _ ih =>
      cases hs with
      | head =>
          refine ⟨behind, (List.append_assoc _ _ _).symm, hf, fun c hc d hd => hp c hc d ?_⟩
          rw [List.head?_append, Option.mem_def.mp hd]
          rfl
      | tail _ hs =>
          have hp' : Parted (before ++ p.text) behind := fun c hc d hd => by
            refine hf.parted c ?_ d hd
            rwa [List.getLast?_append, List.getLast?_eq_some_getLast hf.ne_nil, Option.some_or,
              ← List.getLast?_eq_some_getLast] at hc
          have hlies := ih hp' hs
          rwa [List.append_assoc] at hlies

theorem Segment.Lies.bytes {s : Segment} {source : String} (h : s.Lies source.toList) :
    s.stop.IsValid source ∧ source.toByteArray.extract s.start.byteIdx s.stop.byteIdx =
      (String.ofList s.piece.text).toByteArray := by
  obtain ⟨behind, htext, -, -⟩ := h
  have hsource : source = String.ofList (s.before ++ s.piece.text) ++ String.ofList behind := by
    rw [← String.ofList_append, ← htext, String.ofList_toList]
  constructor
  · rw [hsource]
    exact String.Pos.Raw.isValid_rawEndPos.append_right _
  · have hstart : s.start.byteIdx = (String.ofList s.before).toByteArray.size :=
      String.size_toByteArray.symm
    have hstop : s.stop.byteIdx = (String.ofList s.before).toByteArray.size +
        (String.ofList s.piece.text).toByteArray.size := by
      rw [← ByteArray.size_append, ← String.toByteArray_append, ← String.ofList_append]
      exact String.size_toByteArray.symm
    have hbehind : (String.ofList s.before).toByteArray.size +
        (String.ofList s.piece.text).toByteArray.size -
          ((String.ofList s.before).toByteArray ++ (String.ofList s.piece.text).toByteArray).size =
        0 := by
      rw [ByteArray.size_append, Nat.sub_self]
    rw [hsource, String.toByteArray_append, String.ofList_append, String.toByteArray_append, hstart,
      hstop, ByteArray.extract_append, ByteArray.extract_append_eq_right rfl rfl, hbehind]
    simp

/-! ### Items -/

theorem filterMap_segmentsFrom (ps : List Piece) (before : List Char) :
    (segmentsFrom before ps).filterMap Segment.item? = itemsFrom (1 + before.count '\n') ps := by
  induction ps generalizing before with
  | nil => rfl
  | cons p ps ih =>
      have hline : 1 + (before ++ p.text).count '\n' = 1 + before.count '\n' + p.newlines := by
        rw [List.count_append, Piece.newlines, Nat.add_assoc]
      have h := ih (before ++ p.text)
      rw [hline] at h
      rw [segmentsFrom, List.filterMap_cons, h, itemsFrom, Segment.item?, Segment.line, hline]
      cases p.item? (1 + before.count '\n' + p.newlines) <;> rfl

theorem items_eq_segments (source : String) :
    items source = (segments source).filterMap Segment.item? ++
      [.token ⟨.eof, "", 1 + source.toList.count '\n'⟩] := by
  rw [items_eq, lineBehind_pieces, segments, filterMap_segmentsFrom]
  rfl

namespace Cursor

theorem yield_congr {s t : Cursor} (h : s.next = t.next) (n : Nat) : s.yield n = t.yield n := by
  cases n with
  | zero => exact congrArg Prod.fst h
  | succ n => exact congrArg (fun r => yield n r.2) h

theorem yield_ended (line n : Nat) : yield n ⟨[], line, true⟩ = none := by
  induction n with
  | zero => rw [yield, next]
  | succ n ih => rw [yield, next, ih]

/-- A cursor yields the items of the pieces ahead, the end mark, and then nothing. -/
theorem yield_eq (n line : Nat) : (text : List Char) → yield n ⟨text, line, false⟩ =
    (itemsFrom line (pieces text) ++
      [.token ⟨.eof, "", lineBehind line (pieces text)⟩])[n]?
  | [] => by
      rw [pieces_nil]
      cases n with
      | zero => rw [yield, next]; rfl
      | succ n => rw [yield, next, yield_ended]; rfl
  | c :: rest => by
      have ih (k : Nat) := yield_eq k (line + (cut c rest).1.newlines) (cut c rest).2
      rw [pieces_cons, itemsFrom, lineBehind]
      cases hi : (cut c rest).1.item? (line + (cut c rest).1.newlines) with
      | none =>
          have hnext : next ⟨c :: rest, line, false⟩ =
              next ⟨(cut c rest).2, line + (cut c rest).1.newlines, false⟩ := by
            rw [next]
            simp only [hi]
          rw [yield_congr hnext, ih]
          rfl
      | some i =>
          have hnext : next ⟨c :: rest, line, false⟩ =
              (some i, ⟨(cut c rest).2, line + (cut c rest).1.newlines, false⟩) := by
            rw [next]
            simp only [hi]
          cases n with
          | zero => rw [yield, hnext]; rfl
          | succ k => rw [yield, hnext, ih]; rfl
termination_by text => text.length
decreasing_by all_goals have := length_cut_le c rest; simp only [List.length_cons]; omega

end Cursor

/-- The segments of a text follow each other without a gap from its first byte to its last, and stop
where a character does. Each one is a blank, a comment, a token or a faulty stretch that could not
be longer at its place, and there is no other row of pieces that tiles the text. A cursor yields the
items of the tokens and faulty stretches, each at the line on which it ends, then the end mark at the
last line, and then nothing however often it is asked. -/
theorem segments_tile (source : String) :
    (segments source).map Segment.start ++ [source.rawEndPos] =
      0 :: (segments source).map Segment.stop ∧
    (∀ s ∈ segments source, s.Lies source.toList ∧ s.stop.IsValid source ∧
      source.toByteArray.extract s.start.byteIdx s.stop.byteIdx =
        (String.ofList s.piece.text).toByteArray) ∧
    (∀ c, ∀ b ∈ String.utf8EncodeChar c, isRecognizable (Char.ofNat b.toNat) = isRecognizable c) ∧
    (∀ ps, Tiles ps source.toList ↔ (segments source).map Segment.piece = ps) ∧
    items source = (segments source).filterMap Segment.item? ++
      [.token ⟨.eof, "", 1 + source.toList.count '\n'⟩] ∧
    ∀ n, (Cursor.start source).yield n = (items source)[n]? := by
  refine ⟨?_, fun s hs => ?_, fun c b hb => isRecognizable_byte hb, fun ps => ?_,
    items_eq_segments source, fun n => ?_⟩
  · have h := contiguous (pieces source.toList) []
    rw [List.nil_append, flatMap_text_pieces, String.ofList_toList] at h
    exact h
  · have hlies : s.Lies source.toList :=
      lies_of_mem (tiles_pieces source.toList) (fun c hc => by cases hc) hs
    exact ⟨hlies, hlies.bytes⟩
  · rw [tiles_iff, map_piece_segments]
  · rw [Cursor.start, Cursor.yield_eq, items_eq]

end Lox.Source
