import Inlay.Text

/-!
Searching a text loses nothing of it. A reader that takes at least one
character from the front cuts a text into pieces that make it up again.
-/

namespace Inlay.Text

/-! ### Reading at the front -/

theorem eq_of_after? {p t rest : Text} (h : after? p t = some rest) : t = p ++ rest := by
  induction p generalizing t with
  | nil => simpa [after?] using h
  | cons c p ih =>
      cases t with
      | nil => simp [after?] at h
      | cons d t =>
          simp only [after?] at h
          split at h
          · rename_i hcd
            rw [hcd, ih h, List.cons_append]
          · contradiction

theorem eq_of_before? {s t rest : Text} (h : before? s t = some rest) : t = rest ++ s := by
  obtain ⟨back, hback, rfl⟩ := Option.map_eq_some_iff.mp h
  have hreverse := congrArg List.reverse (eq_of_after? hback)
  simpa using hreverse

theorem after?_append (p rest : Text) : after? p (p ++ rest) = some rest := by
  induction p with
  | nil => rfl
  | cons c p ih => simp [after?, ih]

theorem before?_append (body suffix : Text) : before? suffix (body ++ suffix) = some body := by
  simp [before?, after?_append]

def Stops (p : Char → Bool) (t : Text) : Prop := ∀ c ∈ t.head?, p c = false

theorem stops_cons {p : Char → Bool} {c : Char} (hc : p c = false) (t : Text) :
    Stops p (c :: t) := by
  intro d hd
  rwa [← Option.some.inj hd]

theorem stops_dropWhile (p : Char → Bool) (t : Text) : Stops p (t.dropWhile p) := by
  intro c hc
  have hhead := List.head?_dropWhile_not p t
  rw [hc] at hhead
  exact hhead

/-- A run of characters is as long as it can be if such a character does not
follow. -/
theorem takeWhile_append {p : Char → Bool} {run rest : Text} (hrun : ∀ c ∈ run, p c = true)
    (hrest : Stops p rest) : (run ++ rest).takeWhile p = run := by
  rw [List.takeWhile_append_of_pos hrun]
  cases rest with
  | nil => simp
  | cons c rest => simp [hrest c rfl]

theorem dropWhile_append {p : Char → Bool} {run rest : Text} (hrun : ∀ c ∈ run, p c = true)
    (hrest : Stops p rest) : (run ++ rest).dropWhile p = rest := by
  rw [List.dropWhile_append_of_pos hrun]
  cases rest with
  | nil => rfl
  | cons c rest => simp [hrest c rfl]

/-- Reading up to a character cuts the text at it. -/
theorem eq_append_of_dropWhile_ne {q close : Char} {t rest : Text}
    (h : t.dropWhile (· ≠ q) = close :: rest) :
    close = q ∧ t = t.takeWhile (· ≠ q) ++ close :: rest := by
  constructor
  · have hhead := List.head?_dropWhile_not (· ≠ q) t
    rw [h] at hhead
    simpa using hhead
  · rw [← h, List.takeWhile_append_dropWhile]

theorem reads_up_to {q : Char} {t : Text} (hq : q ∉ t) (rest : Text) :
    (t ++ q :: rest).takeWhile (· ≠ q) = t ∧ (t ++ q :: rest).dropWhile (· ≠ q) = q :: rest := by
  have ht : ∀ c ∈ t, decide (c ≠ q) = true := by
    intro c hc
    exact decide_eq_true fun h => hq (h ▸ hc)
  have hstops : Stops (fun c => decide (c ≠ q)) (q :: rest) := by simp [Stops]
  exact ⟨takeWhile_append ht hstops, dropWhile_append ht hstops⟩

def TakesFront (here : Text → Option (α × Text)) : Prop :=
  ∀ t value rest, here t = some (value, rest) → ∃ raw, raw ≠ [] ∧ t = raw ++ rest

/-! ### The walk -/

theorem walk_eq_walk_drop (step : List β → List α × Nat) (k : Nat) (t : List β) :
    walk step k t = walk step 0 (t.drop k) := by
  induction t generalizing k with
  | nil => cases k <;> simp [walk]
  | cons c t ih =>
      cases k with
      | zero => rfl
      | succ k => simpa [walk] using ih k

theorem walk_cons (step : List β → List α × Nat) (c : β) (t : List β)
    (hpos : 0 < (step (c :: t)).2) :
    walk step 0 (c :: t) =
      (step (c :: t)).1 ++ walk step 0 ((c :: t).drop (step (c :: t)).2) := by
  obtain ⟨size, hsize⟩ := Nat.exists_eq_add_of_lt hpos
  simp only [walk]
  rw [walk_eq_walk_drop, hsize]
  simp

/-- A walk whose steps write what they cover writes the whole list. -/
theorem flatMap_walk (step : List β → List α × Nat) (write : α → List β)
    (hpos : ∀ t, t ≠ [] → 0 < (step t).2)
    (hwrite : ∀ t, t ≠ [] → (step t).1.flatMap write = t.take (step t).2) (t : List β) :
    (walk step 0 t).flatMap write = t := by
  induction hn : t.length using Nat.strongRecOn generalizing t with
  | _ n ih =>
      cases t with
      | nil => simp [walk]
      | cons c t =>
          have hc := hpos (c :: t) (by simp)
          have hshort : ((c :: t).drop (step (c :: t)).2).length < n := by
            simp only [List.length_drop, List.length_cons] at hn ⊢
            omega
          rw [walk_cons step c t hc, List.flatMap_append, hwrite (c :: t) (by simp),
            ih _ hshort _ rfl, List.take_append_drop]

/-! ### Pieces -/

def Piece.raw : Piece α → Text
  | .plain c => [c]
  | .hit raw _ => raw

@[simp] theorem pieces_nil (here : Text → Option (α × Text)) : pieces here [] = [] := rfl

theorem pieces_plain {here : Text → Option (α × Text)} {c : Char} {t : Text}
    (h : here (c :: t) = none) : pieces here (c :: t) = .plain c :: pieces here t := by
  simp [pieces, walk, h]

theorem pieces_hit {here : Text → Option (α × Text)} {raw rest : Text} {value : α}
    (hraw : raw ≠ []) (h : here (raw ++ rest) = some (value, rest)) :
    pieces here (raw ++ rest) = .hit raw value :: pieces here rest := by
  obtain ⟨c, raw, rfl⟩ := List.exists_cons_of_ne_nil hraw
  rw [List.cons_append] at h ⊢
  have hsize : (c :: (raw ++ rest)).length - rest.length = (c :: raw).length := by
    simp only [List.length_cons, List.length_append]
    omega
  simp only [pieces]
  rw [walk_cons]
  · simp only [h, hsize]
    simp
  · simp only [h, hsize]
    simp

/-- Pieces are read one by one: a character where nothing is found, and else
all that was found. -/
theorem pieces_induction {here : Text → Option (α × Text)} (hhere : TakesFront here)
    {motive : Text → List (Piece α) → Prop} (nil : motive [] [])
    (plain : ∀ c t, here (c :: t) = none → motive t (pieces here t) →
      motive (c :: t) (.plain c :: pieces here t))
    (hit : ∀ raw value rest, raw ≠ [] → here (raw ++ rest) = some (value, rest) →
      motive rest (pieces here rest) →
      motive (raw ++ rest) (.hit raw value :: pieces here rest)) (t : Text) :
    motive t (pieces here t) := by
  -- on the length, since what was found may be of any length
  induction hn : t.length using Nat.strongRecOn generalizing t with
  | _ n ih =>
      cases t with
      | nil => exact nil
      | cons c t =>
          cases h : here (c :: t) with
          | none =>
              rw [pieces_plain h]
              exact plain c t h (ih t.length (by simp [← hn]) t rfl)
          | some found =>
              obtain ⟨value, rest⟩ := found
              obtain ⟨raw, hraw, heq⟩ := hhere _ _ _ h
              have hshort : rest.length < n := by
                have hlen := congrArg List.length heq
                have hpos := List.length_pos_iff.mpr hraw
                simp only [List.length_append] at hlen
                omega
              rw [heq] at h ⊢
              rw [pieces_hit hraw h]
              exact hit raw value rest hraw h (ih rest.length hshort rest rfl)

/-- The pieces of a text make it up. -/
theorem flatMap_raw_pieces {here : Text → Option (α × Text)} (hhere : TakesFront here)
    (t : Text) : (pieces here t).flatMap Piece.raw = t := by
  refine pieces_induction hhere (motive := fun t ps => ps.flatMap Piece.raw = t) rfl ?_ ?_ t
  · intro c t _ ih
    rw [List.flatMap_cons, ih]
    rfl
  · intro raw value rest _ _ ih
    rw [List.flatMap_cons, ih]
    rfl

/-- What was found is never empty. -/
theorem raw_ne_nil_of_mem_pieces {here : Text → Option (α × Text)} (hhere : TakesFront here)
    (t : Text) {p : Piece α} : p ∈ pieces here t → p.raw ≠ [] := by
  refine pieces_induction hhere (motive := fun _ ps => p ∈ ps → p.raw ≠ []) ?_ ?_ ?_ t
  · simp
  · intro c t _ ih hp
    rcases List.mem_cons.mp hp with rfl | hp
    · simp [Piece.raw]
    · exact ih hp
  · intro raw value rest hraw _ ih hp
    rcases List.mem_cons.mp hp with rfl | hp
    · exact hraw
    · exact ih hp

end Inlay.Text
