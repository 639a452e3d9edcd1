import Inlay.Proofs.Text.Splice
import Inlay.Text.Utf8

/-!
Places in a text by their offset in bytes. An offset cuts a text only where a
character starts. A search that compares bytes finds such places only, since no
byte inside of a character is the first byte of one.
-/

namespace Inlay.Utf8

/-! ### Searching in bytes -/

def indexOf? (p : Bytes) : Bytes → Option Nat
  | [] => if p = [] then some 0 else none
  | b :: bs => if p.isPrefixOf (b :: bs) then some 0 else (indexOf? p bs).map (· + 1)

theorem encode_cons (c : Char) (t : Text) : encode (c :: t) = String.utf8EncodeChar c ++ encode t :=
  List.flatMap_cons

theorem encode_ne_nil {t : Text} (h : t ≠ []) : encode t ≠ [] := by
  obtain ⟨c, t, rfl⟩ := List.exists_cons_of_ne_nil h
  rw [encode_cons]
  exact List.append_ne_nil_of_left_ne_nil String.utf8EncodeChar_ne_nil _

/-- What the bytes of a character are followed by tells it from another one. -/
theorem eq_of_utf8EncodeChar_append_eq {c d : Char} {s t : Bytes}
    (h : String.utf8EncodeChar c ++ s = String.utf8EncodeChar d ++ t) : c = d ∧ s = t := by
  have hdecoded := congrArg (fun bs : Bytes => bs.toByteArray.utf8DecodeChar? 0) h
  simp only [List.toByteArray_append, ByteArray.utf8DecodeChar?_utf8EncodeChar_append] at hdecoded
  obtain rfl := Option.some.inj hdecoded
  exact ⟨rfl, List.append_cancel_left h⟩

theorem encode_isPrefix_iff {p t : Text} : encode p <+: encode t ↔ p <+: t := by
  induction p generalizing t with
  | nil => simp [encode]
  | cons c p ih =>
      cases t with
      | nil => simp [encode]
      | cons d t =>
          rw [encode_cons, encode_cons, List.cons_prefix_cons]
          constructor
          · rintro ⟨more, hmore⟩
            rw [List.append_assoc] at hmore
            obtain ⟨rfl, hrest⟩ := eq_of_utf8EncodeChar_append_eq hmore
            exact ⟨rfl, ih.mp ⟨more, hrest⟩⟩
          · rintro ⟨rfl, hprefix⟩
            exact (List.prefix_append_right_inj _).mpr (ih.mpr hprefix)

theorem exists_utf8EncodeChar_eq (c : Char) : ∃ first more,
    String.utf8EncodeChar c = first :: more ∧ first.IsUTF8FirstByte ∧
      ∀ b ∈ more, ¬b.IsUTF8FirstByte := by
  obtain ⟨first, more, heq⟩ := List.exists_cons_of_ne_nil (String.utf8EncodeChar_ne_nil (c := c))
  have hfirst := UInt8.isUTF8FirstByte_getElem_zero_utf8EncodeChar (c := c)
  refine ⟨first, more, heq, by simpa [heq] using hfirst, fun b hb => ?_⟩
  obtain ⟨i, hi, rfl⟩ := List.mem_iff_getElem.mp hb
  have hlen : i + 1 < (String.utf8EncodeChar c).length := by simp [heq, hi]
  have hinner : ¬(String.utf8EncodeChar c)[i + 1].IsUTF8FirstByte :=
    UInt8.isUTF8FirstByte_getElem_utf8EncodeChar.not.mpr (by simp)
  simpa [heq] using hinner

/-- Nothing that starts with the first byte of a character stands at a byte
inside of one. -/
theorem indexOf?_append_of_not_first {b : UInt8} (hb : b.IsUTF8FirstByte) (p : Bytes)
    {more : Bytes} (hmore : ∀ x ∈ more, ¬x.IsUTF8FirstByte) (rest : Bytes) :
    indexOf? (b :: p) (more ++ rest) = (indexOf? (b :: p) rest).map (· + more.length) := by
  induction more with
  | nil => simp
  | cons x more ih =>
      obtain ⟨hx, hmore⟩ := List.forall_mem_cons.mp hmore
      have hne : b ≠ x := fun h => hx (h ▸ hb)
      rw [List.cons_append, indexOf?, if_neg (by simp [List.isPrefixOf, hne]), ih hmore,
        Option.map_map]
      rfl

end Inlay.Utf8

namespace Inlay.Text

theorem startsWith_iff {p t : Text} : startsWith p t = true ↔ p <+: t := by
  rw [startsWith, Option.isSome_iff_exists]
  constructor
  · rintro ⟨rest, hrest⟩
    exact ⟨rest, (eq_of_after? hrest).symm⟩
  · rintro ⟨rest, rfl⟩
    exact ⟨rest, after?_append p rest⟩

/-- A search in the bytes of a text finds what a search in the text finds. -/
theorem indexOf?_encode (p t : Text) :
    Utf8.indexOf? (Utf8.encode p) (Utf8.encode t) =
      (indexOf? p t).map fun n => byteSize (t.take n) := by
  induction t with
  | nil =>
      by_cases hp : p = []
      · simp [hp, Utf8.encode, Utf8.indexOf?, indexOf?]
      · have hne := Utf8.encode_ne_nil hp
        simp only [Utf8.encode] at hne
        simp [Utf8.encode, Utf8.indexOf?, indexOf?, hp, hne]
  | cons c t ih =>
      have hstarts : (Utf8.encode p).isPrefixOf (Utf8.encode (c :: t)) =
          startsWith p (c :: t) := by
        rw [Bool.eq_iff_iff, List.isPrefixOf_iff_prefix, Utf8.encode_isPrefix_iff, startsWith_iff]
      obtain ⟨first, more, hc, -, hmore⟩ := Utf8.exists_utf8EncodeChar_eq c
      rw [Utf8.encode_cons, hc, List.cons_append] at hstarts ⊢
      rw [Utf8.indexOf?, indexOf?, hstarts]
      split
      · simp
      · rename_i hnot
        have hp : p ≠ [] := by
          rintro rfl
          exact hnot (startsWith_iff.mpr List.nil_prefix)
        obtain ⟨d, p, rfl⟩ := List.exists_cons_of_ne_nil hp
        obtain ⟨start, inner, hd, hstart, -⟩ := Utf8.exists_utf8EncodeChar_eq d
        have hsize : more.length + 1 = c.utf8Size := by
          rw [← String.length_utf8EncodeChar, hc, List.length_cons]
        -- nothing is found at the later bytes of the character
        have hskip := Utf8.indexOf?_append_of_not_first hstart (inner ++ Utf8.encode p) hmore
          (Utf8.encode t)
        rw [← List.cons_append, ← hd, ← Utf8.encode_cons, ih] at hskip
        rw [hskip, Option.map_map, Option.map_map, Option.map_map]
        congr 1
        funext n
        simp only [Function.comp_apply, List.take_succ_cons, byteSize_cons]
        omega

/-- What was found stands at its place. -/
theorem exists_of_indexOf? {p t : Text} {n : Nat} (h : indexOf? p t = some n) :
    ∃ before rest, t = before ++ (p ++ rest) ∧ before.length = n := by
  induction t generalizing n with
  | nil =>
      rw [indexOf?] at h
      split at h
      · rename_i hp
        exact ⟨[], [], by simp [hp], Option.some.inj h⟩
      · contradiction
  | cons c t ih =>
      rw [indexOf?] at h
      split at h
      · rename_i hstarts
        obtain ⟨rest, hrest⟩ := startsWith_iff.mp hstarts
        exact ⟨[], rest, hrest.symm, Option.some.inj h⟩
      · obtain ⟨m, hm, rfl⟩ := Option.map_eq_some_iff.mp h
        obtain ⟨before, rest, rfl, rfl⟩ := ih hm
        exact ⟨c :: before, rest, rfl, rfl⟩

/-! ### Cutting at an offset -/

/-- The two parts of a text at an offset. None where the offset lies within a
character or behind the end. -/
def cutAt? (offset : Nat) (t : Text) : Option (Text × Text) :=
  if byteSize (takeBytes offset t) = offset then some (takeBytes offset t, dropBytes offset t)
  else none

@[simp] theorem takeBytes_append_dropBytes (n : Nat) (t : Text) :
    takeBytes n t ++ dropBytes n t = t := by
  induction t generalizing n with
  | nil => rfl
  | cons c t ih =>
      rw [takeBytes, dropBytes]
      split
      · rfl
      · rw [List.cons_append, ih]

theorem cutAt?_eq_some_iff {offset : Nat} {t before behind : Text} :
    cutAt? offset t = some (before, behind) ↔ t = before ++ behind ∧ byteSize before = offset := by
  constructor
  · intro h
    rw [cutAt?] at h
    split at h
    · rename_i hsize
      obtain ⟨rfl, rfl⟩ := Prod.mk.inj (Option.some.inj h)
      exact ⟨(takeBytes_append_dropBytes offset t).symm, hsize⟩
    · contradiction
  · rintro ⟨rfl, rfl⟩
    simp [cutAt?]

@[simp] theorem cutAt?_append (before behind : Text) :
    cutAt? (byteSize before) (before ++ behind) = some (before, behind) :=
  cutAt?_eq_some_iff.mpr ⟨rfl, rfl⟩

@[simp] theorem cutAt?_take (n : Nat) (t : Text) :
    cutAt? (byteSize (t.take n)) t = some (t.take n, t.drop n) :=
  cutAt?_eq_some_iff.mpr ⟨(List.take_append_drop n t).symm, rfl⟩

def offsets : Nat → Text → List (Nat × Char)
  | _, [] => []
  | offset, c :: t => (offset, c) :: offsets (offset + c.utf8Size) t

end Inlay.Text
