import Inlay.Html.Binding
import Inlay.Proofs.Text.Blank

/-!
Markers in the places of bindings. A text with markers is written from items,
each an ordinary character or a marker, and putting the bindings back is done
item by item. Events are looked for in such a text; what is found is made of
whole items, so that an event holds a property's marker or has nothing of it.
-/

namespace Inlay.Html

open Text

/-! ### Bindings at the front -/

theorem eq_append_of_valueEnd? {t rest : Text} (h : valueEnd? t = some rest) :
    ∃ value, t = value ++ '"' :: rest := by
  unfold valueEnd? at h
  split at h
  · contradiction
  · rename_i close left hleft
    obtain rfl := Option.some.inj h
    obtain ⟨rfl, ht⟩ := eq_append_of_dropWhile_ne hleft
    exact ⟨_, ht⟩

theorem eq_append_of_closedBy? {closing : Char} {t rest : Text}
    (h : closedBy? closing t = some rest) : ∃ front, t = front ++ '"' :: rest := by
  obtain ⟨behind, hbehind, hvalue⟩ := Option.bind_eq_some_iff.mp h
  obtain ⟨value, rfl⟩ := eq_append_of_valueEnd? hvalue
  exact ⟨[closing, '=', '"'] ++ value, by rw [eq_of_after? hbehind, List.append_assoc]⟩

theorem eq_append_of_propertyEnd? {t rest : Text} (h : propertyEnd? t = some rest) :
    ∃ front, t = front ++ '"' :: rest := by
  induction t with
  | nil => simp [propertyEnd?] at h
  | cons c t ih =>
      simp only [propertyEnd?] at h
      -- an end further on is preferred
      split at h
      · rename_i found hfound
        obtain rfl := Option.some.inj h
        split at hfound
        · contradiction
        · obtain ⟨front, rfl⟩ := ih hfound
          exact ⟨c :: front, rfl⟩
      · exact eq_append_of_closedBy? h

theorem eq_append_of_eventEnd? {t rest : Text} (h : eventEnd? t = some rest) :
    ∃ front, t = front ++ '"' :: rest := by
  unfold eventEnd? at h
  simp only at h
  split at h
  · obtain ⟨front, hfront⟩ := eq_append_of_closedBy? h
    refine ⟨t.takeWhile (fun c => c != ')' && c != '"') ++ front, ?_⟩
    rw [List.append_assoc, ← hfront, List.takeWhile_append_dropWhile]
  · contradiction

/-- A binding starts with white space and ends with a quote. -/
theorem eq_append_of_binding? {opening : Char} {finish : Text → Option Text}
    (hfinish : ∀ t rest, finish t = some rest → ∃ front, t = front ++ '"' :: rest)
    {t rest : Text} {u : Unit} (h : binding? opening finish t = some (u, rest)) :
    ∃ c front, isBlank c = true ∧ t = (c :: front) ++ '"' :: rest := by
  unfold binding? at h
  split at h
  · rename_i c o t
    split at h
    · rename_i hopens
      obtain ⟨left, hleft, heq⟩ := Option.map_eq_some_iff.mp h
      obtain rfl : left = rest := congrArg Prod.snd heq
      obtain ⟨front, rfl⟩ := hfinish _ _ hleft
      exact ⟨c, o :: front, hopens.1, rfl⟩
    · contradiction
  · contradiction

theorem takesFront_binding? {opening : Char} {finish : Text → Option Text}
    (hfinish : ∀ t rest, finish t = some rest → ∃ front, t = front ++ '"' :: rest) :
    TakesFront (binding? opening finish) := by
  intro t u rest h
  obtain ⟨c, front, -, rfl⟩ := eq_append_of_binding? hfinish h
  exact ⟨(c :: front) ++ ['"'], by simp, by simp⟩

theorem takesFront_property? : TakesFront property? :=
  takesFront_binding? fun _ _ => eq_append_of_propertyEnd?

theorem takesFront_event? : TakesFront event? :=
  takesFront_binding? fun _ _ => eq_append_of_eventEnd?

theorem event?_eq_none {c : Char} {t : Text} (hc : isBlank c = false) : event? (c :: t) = none := by
  cases t with
  | nil => rfl
  | cons o t => simp [event?, binding?, hc]

/-! ### Markers -/

theorem isDigit_of_mem_decimal {c : Char} {n : Nat} (h : c ∈ decimal n) : c.isDigit = true :=
  Nat.isDigit_of_mem_toDigits (by decide) (by decide) h

theorem mem_marker {c : Char} {n : Nat} (h : c ∈ marker n) :
    c = markerOpen ∨ c.isDigit = true ∨ c = markerClose := by
  rcases List.mem_append.mp h with h | h
  · rcases List.mem_cons.mp h with rfl | h
    · exact .inl rfl
    · exact .inr (.inl (isDigit_of_mem_decimal h))
  · exact .inr (.inr (List.mem_singleton.mp h))

theorem isBlank_of_mem_marker {c : Char} {n : Nat} (h : c ∈ marker n) : isBlank c = false := by
  rcases mem_marker h with rfl | h | rfl
  · rfl
  · exact isBlank_of_isDigit h
  · rfl

theorem quote_not_mem_marker (n : Nat) : '"' ∉ marker n := by
  intro h
  rcases mem_marker h with h | h | h
  · exact absurd h (by decide)
  · exact absurd h (by decide)
  · exact absurd h (by decide)

theorem marker?_marker_append (n : Nat) (t : Text) : marker? (marker n ++ t) = some (n, t) := by
  have hdigits : ∀ c ∈ decimal n, c.isDigit = true := fun c => isDigit_of_mem_decimal
  have hclose : markerClose.isDigit = false := rfl
  have htake : (decimal n ++ markerClose :: t).takeWhile Char.isDigit = decimal n := by
    rw [List.takeWhile_append_of_pos hdigits, List.takeWhile_cons_of_neg (by simp [hclose]),
      List.append_nil]
  have hdrop : (decimal n ++ markerClose :: t).dropWhile Char.isDigit = markerClose :: t := by
    rw [List.dropWhile_append_of_pos hdigits, List.dropWhile_cons_of_neg (by simp [hclose])]
  have hvalue : (decimal n).foldl (fun n d => n * 10 + (d.toNat - '0'.toNat)) 0 = n := by
    simp only [Nat.mul_comm _ 10]
    exact Nat.ofDigitChars_ten_toDigits
  have hne : decimal n ≠ [] := Nat.toDigits_ne_nil
  have hmarker : marker n ++ t = markerOpen :: (decimal n ++ markerClose :: t) := by
    simp [marker]
  rw [hmarker]
  simp only [marker?, htake, hdrop, hvalue]
  simp [hne]

theorem marker?_eq_none {c : Char} {t : Text} (hc : c ≠ markerOpen) : marker? (c :: t) = none := by
  simp [marker?, hc]

theorem takesFront_marker? : TakesFront marker? := by
  intro t n rest h
  cases t with
  | nil => simp [marker?] at h
  | cons c t =>
      simp only [marker?] at h
      split at h
      · split at h
        · rename_i close left hleft
          split at h
          · obtain ⟨-, rfl⟩ := Prod.mk.inj (Option.some.inj h)
            refine ⟨c :: t.takeWhile Char.isDigit ++ [close], by simp, ?_⟩
            rw [List.append_assoc, List.singleton_append, List.cons_append, ← hleft,
              List.takeWhile_append_dropWhile]
          · contradiction
        · contradiction
      · contradiction

/-! ### Items -/

inductive Item where
  | char (c : Char)
  | mark (n : Nat)

namespace Item

def write : Item → Text
  | .char c => [c]
  | .mark n => marker n

def expand (bindings : List Text) : Item → Text
  | .char c => [c]
  | .mark n => bindings[n]?.getD (marker n)

/-- No marker starts but where an item says so. -/
def Clean (is : List Item) : Prop := ∀ c, .char c ∈ is → c ≠ markerOpen

theorem Clean.tail {i : Item} {is : List Item} (h : Clean (i :: is)) : Clean is :=
  fun c hc => h c (List.mem_cons_of_mem i hc)

theorem write_eq_expand {is : List Item} (h : markerOpen ∉ is.flatMap write)
    (bindings : List Text) : is.flatMap write = is.flatMap (expand bindings) := by
  induction is with
  | nil => rfl
  | cons i is ih =>
      rw [List.flatMap_cons, List.mem_append, not_or] at h
      rw [List.flatMap_cons, List.flatMap_cons, ih h.2]
      cases i with
      | char c => rfl
      | mark n => exact absurd (by simp [write, marker]) h.1

end Item

open Item

theorem restore_flatMap_write (bindings : List Text) {is : List Item} (h : Clean is) :
    restore bindings (is.flatMap write) = is.flatMap (expand bindings) := by
  induction is with
  | nil => rfl
  | cons i is ih =>
      have hrest := ih h.tail
      rw [List.flatMap_cons, List.flatMap_cons, ← hrest]
      cases i with
      | char c =>
          have hc := marker?_eq_none (t := is.flatMap write) (h c List.mem_cons_self)
          simp only [restore, write, List.singleton_append]
          rw [pieces_plain hc]
          rfl
      | mark n =>
          have hn := marker?_marker_append n (is.flatMap write)
          simp only [restore, write]
          rw [pieces_hit (by simp [marker]) hn]
          rfl

/-- The items of a text in which markers, numbered from `n` on, stand for what
was found. -/
def itemsFrom : Nat → List (Piece Unit) → List Item
  | _, [] => []
  | n, .plain c :: ps => .char c :: itemsFrom n ps
  | n, .hit _ _ :: ps => .mark n :: itemsFrom (n + 1) ps

theorem withMarkers_eq (n : Nat) (ps : List (Piece Unit)) :
    withMarkers n ps = (itemsFrom n ps).flatMap write := by
  induction ps generalizing n with
  | nil => rfl
  | cons p ps ih =>
      cases p with
      | plain c => simp [withMarkers, itemsFrom, write, ih]
      | hit raw u => simp [withMarkers, itemsFrom, write, ih]

theorem clean_itemsFrom {n : Nat} {ps : List (Piece Unit)}
    (h : markerOpen ∉ ps.flatMap Piece.raw) : Clean (itemsFrom n ps) := by
  induction ps generalizing n with
  | nil => simp [itemsFrom, Clean]
  | cons p ps ih =>
      rw [List.flatMap_cons, List.mem_append, not_or] at h
      have hps := fun n => ih (n := n) h.2
      cases p with
      | plain c =>
          intro d hd
          rcases List.mem_cons.mp hd with heq | hd
          · obtain rfl := Item.char.inj heq
            rintro rfl
            exact h.1 (by simp [Piece.raw])
          · exact hps n d hd
      | hit raw u =>
          intro d hd
          rcases List.mem_cons.mp hd with heq | hd
          · contradiction
          · exact hps (n + 1) d hd

theorem mark_mem_itemsFrom {n i : Nat} {ps : List (Piece Unit)} (hi : i < (found ps).length) :
    .mark (n + i) ∈ itemsFrom n ps := by
  induction ps generalizing n i with
  | nil => simp [found] at hi
  | cons p ps ih =>
      cases p with
      | plain c => exact List.mem_cons_of_mem _ (ih hi)
      | hit raw u =>
          cases i with
          | zero => exact List.mem_cons_self
          | succ i =>
              have hmem := ih (n := n + 1) (i := i) (by simpa [found] using hi)
              rw [show n + 1 + i = n + (i + 1) by omega] at hmem
              exact List.mem_cons_of_mem _ hmem

/-- All that was found stands behind one of the markers. -/
theorem exists_mark_of_mem_found {ps : List (Piece Unit)} {bindings more : List Text} {b : Text}
    (h : bindings = found ps ++ more) (hb : b ∈ found ps) :
    ∃ n, .mark n ∈ itemsFrom 0 ps ∧ bindings[n]? = some b := by
  obtain ⟨n, hn⟩ := List.mem_iff_getElem?.mp hb
  have hlt := (List.getElem?_eq_some_iff.mp hn).1
  refine ⟨n, by simpa using mark_mem_itemsFrom (n := 0) hlt, ?_⟩
  rwa [h, List.getElem?_append_left hlt]

theorem getElem?_of_drop_eq_cons {l rest : List α} {n : Nat} {a : α} (h : l.drop n = a :: rest) :
    l[n]? = some a ∧ l.drop (n + 1) = rest := by
  constructor
  · have hhead : (l.drop n)[0]? = l[n]? := List.getElem?_drop
    rw [h] at hhead
    exact hhead.symm
  · rw [← List.drop_drop, h]
    rfl

/-- Putting back what was found gives the text in which it was found. -/
theorem flatMap_expand_itemsFrom {n : Nat} {ps : List (Piece Unit)} {bindings more : List Text}
    (h : bindings.drop n = found ps ++ more) :
    (itemsFrom n ps).flatMap (expand bindings) = ps.flatMap Piece.raw := by
  induction ps generalizing n with
  | nil => rfl
  | cons p ps ih =>
      cases p with
      | plain c => simpa [itemsFrom, expand, Piece.raw] using ih h
      | hit raw u =>
          obtain ⟨hat, hrest⟩ := getElem?_of_drop_eq_cons (a := raw) h
          simp [itemsFrom, expand, Piece.raw, hat, ih hrest]

end Inlay.Html
