import Inlay.Proofs.Text.Blank
import Mathlib.Data.List.Induction

/-!
The words of a text. Two texts have the same words exactly if they have the same
characters apart from white space, and white space in front of the same ones.
-/

namespace Inlay.Text

def words (t : Text) : List Text := (t.splitOnP isBlank).filter (· ≠ [])

/-- The characters that are no white space, each with whether white space stands
in front of it; `apart` says so for what stands in front of the text. -/
def inkFrom : Bool → Text → List (Bool × Char)
  | _, [] => []
  | apart, c :: t => if isBlank c then inkFrom true t else (apart, c) :: inkFrom false t

def apartBehind (apart : Bool) (t : Text) : Bool := t.foldl (fun _ c => isBlank c) apart

/-! ### Words and ink -/

def wordInk : Text → List (Bool × Char)
  | [] => []
  | c :: w => (true, c) :: w.map (false, ·)

def wordsOfInk : List (Bool × Char) → Text × List Text
  | [] => ([], [])
  | (false, c) :: ink => (c :: (wordsOfInk ink).1, (wordsOfInk ink).2)
  | (true, c) :: ink => ([], (c :: (wordsOfInk ink).1) :: (wordsOfInk ink).2)

theorem inkFrom_eq (t : Text) : ∃ first more, t.splitOnP isBlank = first :: more ∧
    inkFrom false t = first.map (false, ·) ++ (more.filter (· ≠ [])).flatMap wordInk ∧
    inkFrom true t = (words t).flatMap wordInk := by
  induction t with
  | nil => exact ⟨[], [], rfl, rfl, rfl⟩
  | cons c t ih =>
      obtain ⟨first, more, hsplit, hwithin, hapart⟩ := ih
      have hstep := List.splitOnP_cons_eq_if_modifyHead (p := isBlank) c t
      cases hc : isBlank c with
      | true =>
          rw [hc, if_pos rfl, hsplit] at hstep
          rw [words, hsplit] at hapart
          refine ⟨[], first :: more, hstep, ?_, ?_⟩
          · simpa [inkFrom, hc] using hapart
          · simpa [inkFrom, hc, words, hstep] using hapart
      | false =>
          rw [hc, if_neg Bool.false_ne_true, hsplit, List.modifyHead_cons] at hstep
          refine ⟨c :: first, more, hstep, ?_, ?_⟩
          · simp [inkFrom, hc, hwithin]
          · simp [inkFrom, hc, words, hstep, hwithin, wordInk]

theorem wordsOfInk_map (w : Text) (ink : List (Bool × Char)) :
    wordsOfInk (w.map (false, ·) ++ ink) = (w ++ (wordsOfInk ink).1, (wordsOfInk ink).2) := by
  induction w with
  | nil => rfl
  | cons c w ih => simp [wordsOfInk, ih]

theorem wordsOfInk_flatMap {ws : List Text} (h : ∀ w ∈ ws, w ≠ []) :
    wordsOfInk (ws.flatMap wordInk) = ([], ws) := by
  induction ws with
  | nil => rfl
  | cons w ws ih =>
      have hws := ih fun v hv => h v (List.mem_cons_of_mem w hv)
      cases w with
      | nil => exact absurd rfl (h [] List.mem_cons_self)
      | cons c w => simp [wordInk, wordsOfInk, wordsOfInk_map, hws]

theorem words_eq_iff {t u : Text} : words t = words u ↔ inkFrom true t = inkFrom true u := by
  obtain ⟨-, -, -, -, ht⟩ := inkFrom_eq t
  obtain ⟨-, -, -, -, hu⟩ := inkFrom_eq u
  constructor
  · intro h
    rw [ht, hu, h]
  · intro h
    have hne : ∀ v, ∀ w ∈ words v, w ≠ [] := by simp [words]
    have hwords := congrArg wordsOfInk (ht ▸ hu ▸ h)
    rw [wordsOfInk_flatMap (hne t), wordsOfInk_flatMap (hne u)] at hwords
    exact congrArg Prod.snd hwords

/-! ### Texts side by side -/

theorem inkFrom_append (apart : Bool) (t u : Text) :
    inkFrom apart (t ++ u) = inkFrom apart t ++ inkFrom (apartBehind apart t) u := by
  induction t generalizing apart with
  | nil => rfl
  | cons c t ih => cases hc : isBlank c <;> simp [inkFrom, apartBehind, hc, ih]

theorem apartBehind_append (apart : Bool) (t u : Text) :
    apartBehind apart (t ++ u) = apartBehind (apartBehind apart t) u :=
  List.foldl_append

theorem apartBehind_eq (apart : Bool) (t : Text) :
    apartBehind apart t = if t = [] then apart else endsBlank t := by
  induction t using List.reverseRecOn with
  | nil => rfl
  | append_singleton t c _ => simp [apartBehind, endsBlank]

theorem Blank.inkFrom_eq_nil {t : Text} (h : Blank t) (apart : Bool) : inkFrom apart t = [] := by
  induction t generalizing apart with
  | nil => rfl
  | cons c t ih =>
      rw [inkFrom, if_pos (h c List.mem_cons_self)]
      exact ih (fun d hd => h d (List.mem_cons_of_mem c hd)) true

theorem Blank.apartBehind_eq {t : Text} (h : Blank t) (apart : Bool) :
    apartBehind apart t = (apart || t ≠ []) := by
  rw [Text.apartBehind_eq]
  split
  · rename_i hnil
    simp [hnil]
  · rename_i hne
    have hlast := h _ (List.getLast_mem hne)
    simp [endsBlank, List.getLast?_eq_some_getLast hne, hlast, hne]

/-- The first of the characters is apart if white space stands before the text or
starts it. -/
theorem exists_inkFrom_eq_cons {t : Text} (h : ¬Blank t) :
    ∃ c ink, ∀ apart, inkFrom apart t = (apart || startsBlank t, c) :: ink := by
  induction t with
  | nil => exact absurd (by simp [Blank]) h
  | cons c t ih =>
      cases hc : isBlank c with
      | false => exact ⟨c, inkFrom false t, fun apart => by simp [inkFrom, startsBlank, hc]⟩
      | true =>
          obtain ⟨d, ink, hink⟩ := ih fun ht => h fun e he => by
            rcases List.mem_cons.mp he with rfl | he
            · exact hc
            · exact ht e he
          exact ⟨d, ink, fun apart => by simp [inkFrom, startsBlank, hc, hink]⟩

theorem blank_iff {t : Text} : Blank t ↔ inkFrom true t = [] := by
  constructor
  · exact fun h => h.inkFrom_eq_nil true
  · intro h
    by_contra hink
    obtain ⟨c, ink, heq⟩ := exists_inkFrom_eq_cons hink
    simp [heq] at h

/-! ### Collapsing and trimming -/

theorem inkFrom_collapseFrom {inRun apart : Bool} (h : inRun = true → apart = true) (t : Text) :
    inkFrom apart (collapseFrom inRun t) = inkFrom apart t ∧
      apartBehind apart (collapseFrom inRun t) = apartBehind apart t := by
  induction t generalizing inRun apart with
  | nil => exact ⟨rfl, rfl⟩
  | cons c t ih =>
      cases hc : isBlank c with
      | false => simpa [collapseFrom, inkFrom, apartBehind, hc] using @ih false false (by simp)
      | true =>
          have hrest := @ih true true (fun _ => rfl)
          cases inRun with
          | false => simpa [collapseFrom, inkFrom, apartBehind, hc, isBlank_space] using hrest
          | true =>
              obtain rfl := h rfl
              simpa [collapseFrom, inkFrom, apartBehind, hc] using hrest

theorem inkFrom_collapse (apart : Bool) (t : Text) : inkFrom apart (collapse t) = inkFrom apart t :=
  (inkFrom_collapseFrom (by simp) t).1

theorem apartBehind_collapse (apart : Bool) (t : Text) :
    apartBehind apart (collapse t) = apartBehind apart t :=
  (inkFrom_collapseFrom (by simp) t).2

theorem startsBlank_collapse (t : Text) : startsBlank (collapse t) = startsBlank t := by
  cases t with
  | nil => rfl
  | cons c t =>
      cases hc : isBlank c <;> simp [collapse, collapseFrom, startsBlank, hc, isBlank_space]

theorem collapse_eq_nil_iff {t : Text} : collapse t = [] ↔ t = [] := by
  cases t with
  | nil => simp [collapse, collapseFrom]
  | cons c t => cases hc : isBlank c <;> simp [collapse, collapseFrom, hc]

theorem endsBlank_collapse (t : Text) : endsBlank (collapse t) = endsBlank t := by
  have h := apartBehind_collapse false t
  rw [apartBehind_eq, apartBehind_eq] at h
  by_cases ht : t = []
  · rw [ht]
    rfl
  · rwa [if_neg ht, if_neg (mt collapse_eq_nil_iff.mp ht)] at h

theorem Blank.collapse_eq {t : Text} (h : Blank t) (ht : t ≠ []) : collapse t = [' '] := by
  have hrun : ∀ u : Text, Blank u → collapseFrom true u = [] := by
    intro u hu
    induction u with
    | nil => rfl
    | cons c u ih =>
        simpa [collapseFrom, hu c List.mem_cons_self] using
          ih fun d hd => hu d (List.mem_cons_of_mem c hd)
  obtain ⟨c, t, rfl⟩ := List.exists_cons_of_ne_nil ht
  have hc := h c List.mem_cons_self
  simp [collapse, collapseFrom, hc, hrun t fun d hd => h d (List.mem_cons_of_mem c hd)]

theorem inkFrom_trimStart (t : Text) : inkFrom true (trimStart t) = inkFrom true t := by
  obtain ⟨run, hrun, ht⟩ := exists_eq_append_trimStart t
  conv => rhs; rw [ht]
  rw [inkFrom_append, hrun.inkFrom_eq_nil, hrun.apartBehind_eq, Bool.true_or, List.nil_append]

theorem inkFrom_trimEnd (t : Text) : inkFrom true (trimEnd t) = inkFrom true t := by
  obtain ⟨run, hrun, ht⟩ := exists_eq_trimEnd_append t
  conv => rhs; rw [ht]
  rw [inkFrom_append, hrun.inkFrom_eq_nil, List.append_nil]

end Inlay.Text
