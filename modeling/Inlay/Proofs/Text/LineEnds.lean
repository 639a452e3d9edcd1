import Inlay.Proofs.Text.Pieces

/-!
Two ways to end lines. A text whose lines end in a newline has a second form,
in which a carriage return stands in front of each newline. Where that form is
cut in two the text is, unless the cut parts a carriage return from its
newline.
-/

namespace Inlay.Text

def crlf (t : Text) : Text := t.flatMap fun c => if c = '\n' then ['\r', '\n'] else [c]

@[simp] theorem crlf_nil : crlf [] = [] := rfl

@[simp] theorem crlf_newline (t : Text) : crlf ('\n' :: t) = '\r' :: '\n' :: crlf t := rfl

theorem crlf_cons {c : Char} (hc : c ≠ '\n') (t : Text) : crlf (c :: t) = c :: crlf t := by
  simp [crlf, hc]

@[simp] theorem crlf_append (a b : Text) : crlf (a ++ b) = crlf a ++ crlf b := by
  simp [crlf]

theorem crlf_ne_nil {t : Text} (h : t ≠ []) : crlf t ≠ [] := by
  obtain ⟨c, t, rfl⟩ := List.exists_cons_of_ne_nil h
  by_cases hc : c = '\n'
  · simp [hc]
  · simp [crlf_cons hc]

theorem mem_crlf_of_mem {c : Char} {t : Text} (h : c ∈ t) : c ∈ crlf t := by
  refine List.mem_flatMap.mpr ⟨c, h, ?_⟩
  split <;> simp_all

theorem mem_of_mem_crlf {c : Char} {t : Text} (h : c ∈ crlf t) (hc : c ≠ '\r') : c ∈ t := by
  obtain ⟨d, hd, h⟩ := List.mem_flatMap.mp h
  split at h <;> simp_all

theorem crlf_of_newline_notMem {t : Text} (h : '\n' ∉ t) : crlf t = t := by
  induction t with
  | nil => rfl
  | cons c t ih =>
      simp only [List.mem_cons, not_or] at h
      rw [crlf_cons (Ne.symm h.1), ih h.2]

/-- A character that is not part of a line's end is where it was. -/
theorem crlf_eq_cons {t rest : Text} {c : Char} (hc : c ≠ '\r') (h : crlf t = c :: rest) :
    c ≠ '\n' ∧ ∃ left, t = c :: left ∧ rest = crlf left := by
  cases t with
  | nil => simp at h
  | cons d t =>
      by_cases hd : d = '\n'
      · subst hd
        exact absurd (List.cons.inj h).1.symm hc
      · rw [crlf_cons hd] at h
        obtain ⟨rfl, rfl⟩ := List.cons.inj h
        exact ⟨hd, t, rfl, rfl⟩

theorem crlf_eq_append_left {t a b : Text} (ha : '\r' ∉ a) (h : crlf t = a ++ b) :
    '\n' ∉ a ∧ ∃ back, t = a ++ back ∧ b = crlf back := by
  induction a generalizing t with
  | nil => exact ⟨by simp, t, rfl, h.symm⟩
  | cons c a ih =>
      simp only [List.mem_cons, not_or] at ha ⊢
      obtain ⟨hc, left, rfl, hleft⟩ := crlf_eq_cons (Ne.symm ha.1) h
      obtain ⟨hnewline, back, rfl, rfl⟩ := ih ha.2 hleft.symm
      exact ⟨⟨Ne.symm hc, hnewline⟩, back, rfl, rfl⟩

/-- A cut in front of anything but a newline is one of the text. -/
theorem crlf_eq_append {t a b : Text} (h : crlf t = a ++ b) (hb : Stops (· == '\n') b) :
    ∃ front back, t = front ++ back ∧ a = crlf front ∧ b = crlf back := by
  induction t generalizing a with
  | nil =>
      obtain ⟨rfl, rfl⟩ := List.append_eq_nil_iff.mp h.symm
      exact ⟨[], [], rfl, rfl, rfl⟩
  | cons c t ih =>
      cases a with
      | nil => exact ⟨[], c :: t, rfl, rfl, h.symm⟩
      | cons d a =>
          by_cases hc : c = '\n'
          · subst hc
            rw [crlf_newline, List.cons_append, List.cons.injEq] at h
            obtain ⟨rfl, h⟩ := h
            cases a with
            | nil =>
                rw [List.nil_append] at h
                simpa using hb '\n' (by rw [← h]; rfl)
            | cons e a =>
                rw [List.cons_append, List.cons.injEq] at h
                obtain ⟨rfl, h⟩ := h
                obtain ⟨front, back, rfl, rfl, rfl⟩ := ih h
                exact ⟨'\n' :: front, back, rfl, rfl, rfl⟩
          · rw [crlf_cons hc, List.cons_append, List.cons.injEq] at h
            obtain ⟨rfl, h⟩ := h
            obtain ⟨front, back, rfl, rfl, rfl⟩ := ih h
            exact ⟨c :: front, back, rfl, (crlf_cons hc front).symm, rfl⟩

end Inlay.Text
