import Inlay.Proofs.Path.Trail
import Inlay.Proofs.Text.Pieces
import Mathlib.Data.List.TakeWhile

/-!
The folding join. The path that it puts together is the path of a trail at every
step, and its count is the number of the trail's names, so that a step up only
ever takes off a name. The result is the normal form of the place that the
components lead to; joining goes on from there as if both paths had been joined
by a slash before.
-/

namespace Inlay.Path

open Text

/-! ### A component more, a component less -/

namespace Trail

theorem path_eq_nil_iff {t : Trail} (h : t.Normal) :
    t.path = [] ↔ t.rooted = false ∧ t.ups = 0 ∧ t.names = [] := by
  constructor
  · intro hpath
    have ht := h.walk_steps_path
    rw [hpath, steps_nil, ← h.isRooted_path, hpath] at ht
    rw [← ht]
    exact ⟨rfl, rfl, rfl⟩
  · rintro ⟨hrooted, hups, hnames⟩
    simp [path, segments, hrooted, hups, hnames, join]

/-- The path of a trail ends with its last segment. -/
theorem exists_path_eq_append {t : Trail} {front : List Text} {last : Text}
    (hsegments : t.segments = front ++ [last]) : ∃ before, t.path = before ++ last := by
  have hjoin : ∃ before, join ['/'] t.segments = before ++ last := by
    rw [hsegments]
    by_cases hfront : front = []
    · exact ⟨[], by simp [hfront, join]⟩
    · exact ⟨join ['/'] front ++ ['/'], join_append_singleton hfront last⟩
  obtain ⟨before, hbefore⟩ := hjoin
  unfold path
  split
  · exact ⟨'/' :: before, by rw [hbefore, List.cons_append]⟩
  · exact ⟨before, hbefore⟩

theorem Normal.append_path {t : Trail} (h : t.Normal) {s : Text} (hne : s ≠ [])
    (hslash : '/' ∉ s) :
    append t.path s = if t.rooted then '/' :: join ['/'] (t.segments ++ [s])
      else join ['/'] (t.segments ++ [s]) := by
  have hplain : isRooted s = false := by
    have hjoin : isRooted (join ['/'] [s]) = false :=
      isRooted_join (by simpa using hne) (by simpa using hslash)
    simpa [join] using hjoin
  rw [append, if_neg (by simp [hplain])]
  by_cases hsegments : t.segments = []
  · cases hrooted : t.rooted <;> simp [path, hsegments, hrooted, join]
  · obtain ⟨front, last, hlast⟩ := (List.eq_nil_or_concat' t.segments).resolve_left hsegments
    obtain ⟨before, hbefore⟩ := exists_path_eq_append hlast
    have hmem : last ∈ t.segments := by simp [hlast]
    have hend : ¬(t.path = [] ∨ t.path.getLast? = some '/') := by
      have hne := (h.ne_of_mem_segments hmem).1
      rintro (hnil | hslash)
      · simp [hbefore, hne] at hnil
      · rw [hbefore, List.getLast?_append_of_ne_nil before hne] at hslash
        exact h.notMem_of_mem_segments hmem (List.mem_of_getLast? hslash)
    rw [if_neg hend, join_append_singleton hsegments]
    cases hrooted : t.rooted <;> simp [path, hrooted]

theorem Normal.append_name {t : Trail} (h : t.Normal) {n : Text} (hn : IsName n) :
    append t.path n = (t.push (.name n)).path := by
  rw [h.append_path hn.ne_nil hn.no_slash]
  simp [path, Trail.push, segments]

theorem Normal.append_parent {t : Trail} (h : t.Normal) (hrooted : t.rooted = false)
    (hnames : t.names = []) : append t.path ['.', '.'] = (t.push .parent).path := by
  rw [h.append_path (by decide) (by decide)]
  simp [path, Trail.push, segments, hrooted, hnames, List.replicate_succ']

/-- No `.` in front anchors the path of a trail. -/
theorem Normal.anchor_path {t : Trail} (h : t.Normal) :
    anchor t.path = if t.rooted then ['/'] else [] := by
  rw [anchor, h.isRooted_path]
  cases hrooted : t.rooted with
  | true => rfl
  | false =>
      refine (if_neg Bool.false_ne_true).trans (if_neg fun hdot => h.head?_split_path hrooted ?_)
      rcases hdot with hdot | hdot
      · rw [hdot]
        rfl
      · obtain ⟨rest, hrest⟩ := Option.isSome_iff_exists.mp hdot
        rw [eq_of_after? hrest]
        exact congrArg List.head? (split_append '/' ['.'] rest)

theorem Normal.parent?_path {t : Trail} (h : t.Normal) {front : List Text} {last : Text}
    (hsegments : t.segments = front ++ [last]) :
    parent? t.path = some (if t.rooted then '/' :: join ['/'] front else join ['/'] front) := by
  have hfiller : ∀ s ∈ t.segments, isFiller s = false := fun s hs => by
    have hne := h.ne_of_mem_segments hs
    simp [isFiller, hne]
  have hsplit : split '/' (t.path.drop (anchor t.path).length) = front ++ [last] := by
    rw [h.anchor_path, ← hsegments]
    have hdrop : t.path.drop (if t.rooted then ['/'] else []).length = join ['/'] t.segments := by
      cases hrooted : t.rooted <;> simp [path, hrooted]
    rw [hdrop]
    exact split_join (by simp [hsegments]) fun s hs => h.notMem_of_mem_segments hs
  have hlast : (front ++ [last]).reverse.dropWhile isFiller = last :: front.reverse := by
    rw [List.reverse_append, List.reverse_singleton, List.singleton_append]
    exact List.dropWhile_cons_of_neg (by simp [hfiller last (by simp [hsegments])])
  have hfront : front.reverse.dropWhile isFiller = front.reverse := by
    refine List.dropWhile_eq_self_iff.mpr fun hpos => ?_
    have hmem := List.mem_reverse.mp (List.getElem_mem hpos)
    exact ne_true_of_eq_false (hfiller _ (hsegments ▸ List.mem_append_left [last] hmem))
  simp only [parent?, hsplit, hlast, hfront, List.reverse_reverse]
  rw [h.anchor_path]
  cases t.rooted <;> rfl

theorem Normal.pop_path {t : Trail} (h : t.Normal) {n : Text} {outer : List Text}
    (hnames : t.names = n :: outer) : pop t.path = { t with names := outer }.path := by
  have hsegments : t.segments = { t with names := outer }.segments ++ [n] := by
    simp [segments, hnames]
  rw [pop, h.parent?_path hsegments, Option.getD_some]
  rfl

/-! ### The joined path follows a trail -/

def joined (t : Trail) : Joined := ⟨t.path, t.names.length⟩

theorem Normal.push_joined {t : Trail} (h : t.Normal) {leads : Bool} {c : Component}
    (hroot : leads = true → c ≠ .root) (hname : ∀ n, c = .name n → IsName n) :
    t.joined.push leads c = (t.push c).joined := by
  cases c with
  | root => cases leads <;> simp_all [Joined.push, Trail.push]
  | current => rfl
  | name n => simp [Joined.push, joined, h.append_name (hname n rfl), Trail.push]
  | parent =>
      cases hnames : t.names with
      | cons n outer =>
          simp [Joined.push, joined, h.pop_path hnames, Trail.push, hnames]
      | nil =>
          cases hrooted : t.rooted with
          | true => simp [Joined.push, joined, Trail.push, hnames, h.isRooted_path, hrooted]
          | false =>
              have happend := h.append_parent hrooted hnames
              simp [Joined.push, joined, h.isRooted_path, happend, Trail.push, hnames, hrooted]

theorem Normal.foldl_push_joined {t : Trail} (h : t.Normal) {leads : Bool} {cs : List Component}
    (hroot : leads = true → .root ∉ cs) (hname : ∀ n, .name n ∈ cs → IsName n) :
    cs.foldl (Joined.push leads) t.joined = (t.walk cs).joined := by
  induction cs generalizing t with
  | nil => rfl
  | cons c cs ih =>
      have hname' : ∀ n, c = .name n → IsName n := by
        rintro n rfl
        exact hname n List.mem_cons_self
      rw [List.foldl_cons, h.push_joined (fun hleads hc => hroot hleads (hc ▸ List.mem_cons_self))
        hname']
      exact ih (h.push hname') (fun hleads hc => hroot hleads (List.mem_cons_of_mem c hc))
        fun n hn => hname n (List.mem_cons_of_mem c hn)

end Trail

/-! ### The states of the folding join -/

/-- The states that joining passes through: some components of the path that
leads are taken in, or all of them and some of the other path. -/
inductive Joined.Passed (base tail : Text) : Joined → Prop
  | leading {cs : List Component} (h : cs <+: components base) :
      Passed base tail (cs.foldl (Joined.push true) ⟨[], 0⟩)
  | trailing {cs : List Component} (h : cs <+: components tail) :
      Passed base tail (cs.foldl (Joined.push false) (Joined.lead base))

theorem root_notMem_steps (p : Text) : .root ∉ steps p := fun h => isStep_of_mem_steps h

/-- The path that leads starts at its root, if it has one, as soon as a
component is taken in. -/
theorem exists_trail_of_leading {base : Text} {cs : List Component}
    (h : cs <+: components base) :
    ∃ rooted, (cs = components base → rooted = isRooted base) ∧
      cs.foldl (Joined.push true) ⟨[], 0⟩ = ((Trail.start rooted).walk cs).joined := by
  have hname : ∀ n, .name n ∈ cs → IsName n := fun n hn =>
    Trail.isName_of_mem_components (h.subset hn)
  have hplain : isRooted base = false → .root ∉ cs := by
    intro hbase hmem
    have hmem := h.subset hmem
    rcases components_of_not_isRooted hbase with hcs | hcs <;> rw [hcs] at hmem
    · exact root_notMem_steps base hmem
    · exact root_notMem_steps base (by simpa using hmem)
  have hstart := Trail.normal_start
  cases hbase : isRooted base with
  | false =>
      exact ⟨false, fun _ => rfl, (hstart false).foldl_push_joined (fun _ => hplain hbase) hname⟩
  | true =>
      rw [components_of_isRooted hbase] at h ⊢
      cases cs with
      | nil => exact ⟨false, by simp, rfl⟩
      | cons c cs =>
          obtain ⟨rfl, hcs⟩ := List.cons_prefix_cons.mp h
          exact ⟨true, fun _ => rfl, (hstart true).foldl_push_joined
            (fun _ hmem => root_notMem_steps base (hcs.subset hmem))
            fun n hn => hname n (List.mem_cons_of_mem _ hn)⟩

theorem lead_eq_joined (base : Text) :
    Joined.lead base = ((Trail.start (isRooted base)).walk (components base)).joined := by
  obtain ⟨rooted, hrooted, hlead⟩ := exists_trail_of_leading (List.prefix_refl (components base))
  rw [Joined.lead, hlead, hrooted rfl]

theorem foldl_push_lead {base : Text} {cs : List Component}
    (hname : ∀ n, .name n ∈ cs → IsName n) :
    cs.foldl (Joined.push false) (Joined.lead base) =
      ((Trail.start (isRooted base)).walk (components base ++ cs)).joined := by
  have hbase := (Trail.normal_start (isRooted base)).walk
    fun n (hn : .name n ∈ components base) => Trail.isName_of_mem_components hn
  rw [lead_eq_joined, hbase.foldl_push_joined (by simp) hname, Trail.walk_append]

/-- Every state is a trail, with its path and the number of its names. -/
theorem Joined.Passed.exists_trail {base tail : Text} {j : Joined} (h : j.Passed base tail) :
    ∃ t : Trail, t.Normal ∧ j = t.joined := by
  cases h with
  | leading h =>
      obtain ⟨rooted, -, heq⟩ := exists_trail_of_leading h
      exact ⟨_, (Trail.normal_start rooted).walk fun n hn =>
        Trail.isName_of_mem_components (h.subset hn), heq⟩
  | @trailing cs h =>
      have hname : ∀ n, .name n ∈ cs → IsName n := fun n hn =>
        Trail.isName_of_mem_components (h.subset hn)
      refine ⟨_, (Trail.normal_start (isRooted base)).walk fun n hn => ?_, foldl_push_lead hname⟩
      exact (List.mem_append.mp hn).elim Trail.isName_of_mem_components (hname n)

def Component.isName : Component → Bool
  | .name _ => true
  | _ => false

theorem Trail.Normal.depth_joined {t : Trail} (h : t.Normal) :
    t.joined.depth =
      ((components t.joined.path).reverse.takeWhile Component.isName).length := by
  let front : List Component := (if t.rooted then [.root] else []) ++ List.replicate t.ups .parent
  have hcomponents : (components t.path).reverse = t.names.map .name ++ front.reverse := by
    rw [h.components_path, steps, ← List.append_assoc, List.reverse_append, List.map_reverse,
      List.reverse_reverse]
  have hnames : ∀ c ∈ t.names.map Component.name, c.isName = true := by
    intro c hc
    obtain ⟨n, -, rfl⟩ := List.mem_map.mp hc
    rfl
  have hfront : ∀ c ∈ front, c.isName = false := by
    intro c hc
    rcases List.mem_append.mp hc with hc | hc
    · split at hc
      · rw [List.mem_singleton.mp hc]
        rfl
      · contradiction
    · rw [List.eq_of_mem_replicate hc]
      rfl
  have hstops : front.reverse.takeWhile Component.isName = [] :=
    List.takeWhile_eq_nil_iff.mpr fun hpos =>
      ne_true_of_eq_false (hfront _ (List.mem_reverse.mp (List.getElem_mem hpos)))
  show t.names.length = ((components t.path).reverse.takeWhile Component.isName).length
  rw [hcomponents, List.takeWhile_append_of_pos hnames, hstops, List.append_nil, List.length_map]

theorem Trail.Normal.components_pop {t : Trail} (h : t.Normal) (hdepth : 0 < t.names.length) :
    ∃ front n, components t.path = front ++ [.name n] ∧ components (pop t.path) = front := by
  obtain ⟨n, outer, hnames⟩ := List.exists_cons_of_length_pos hdepth
  have houter : ({ t with names := outer } : Trail).Normal :=
    ⟨h.ups_eq_zero, fun m hm => h.isName m (hnames ▸ List.mem_cons_of_mem n hm)⟩
  refine ⟨components (pop t.path), n, ?_, rfl⟩
  rw [h.pop_path hnames, houter.components_path, h.components_path]
  simp [steps, hnames]

/-! ### The result -/

/-- The normal form of a place; where a walk starts it is `.`. -/
def Trail.render (t : Trail) : Text := if t.path = [] then ['.'] else t.path

theorem resolve_eq_render (base tail : Text) :
    resolve base tail = (Trail.ofPaths base tail).render := by
  rw [resolve, foldl_push_lead fun n hn => Trail.isName_of_mem_components hn]
  rfl

theorem Trail.steps_render (t : Trail) : Path.steps t.render = Path.steps t.path := by
  unfold render
  split
  · rename_i hpath
    rw [hpath]
    rfl
  · rfl

theorem Trail.Normal.isRooted_render {t : Trail} (h : t.Normal) :
    isRooted t.render = t.rooted := by
  unfold render
  split
  · rename_i hpath
    rw [← h.isRooted_path, hpath]
    rfl
  · exact h.isRooted_path

/-- Going on from the normal form of a place goes on from the place. -/
theorem Trail.Normal.ofPaths_render {t : Trail} (h : t.Normal) (p : Text) :
    ofPaths t.render p = t.walk (Path.steps p) := by
  rw [ofPaths_eq, h.isRooted_render, steps_render, h.walk_steps_path]

/-- At every step of the folding join the count is the number of names at the
end of the path, and a step up takes off one of these. The result is `.` or
leads from the root, exactly if the base does, or through steps up over names to
the place that the components lead to. -/
theorem resolve_normal_form (base tail : Text) :
    (∀ j, Joined.Passed base tail j →
      j.depth = ((components j.path).reverse.takeWhile Component.isName).length ∧
        (0 < j.depth → ∃ front n, components j.path = front ++ [.name n] ∧
          components (pop j.path) = front)) ∧
    isRooted (resolve base tail) = isRooted base ∧
    ∃ ups names, Trail.ofPaths base tail = ⟨isRooted base, ups, names.reverse⟩ ∧
      (isRooted base = true → ups = 0) ∧ (∀ n ∈ names, IsName n) ∧
      resolve base tail =
        if isRooted base then '/' :: join ['/'] names
        else if ups = 0 ∧ names = [] then ['.']
        else join ['/'] (List.replicate ups ['.', '.'] ++ names) := by
  have hnormal := Trail.normal_ofPaths base tail
  have hrooted := Trail.rooted_ofPaths base tail
  refine ⟨fun j hj => ?_, ?_, ?_⟩
  · obtain ⟨t, ht, rfl⟩ := hj.exists_trail
    exact ⟨ht.depth_joined, ht.components_pop⟩
  · rw [resolve_eq_render, hnormal.isRooted_render, hrooted]
  · generalize ht : Trail.ofPaths base tail = t at hnormal hrooted
    refine ⟨t.ups, t.names.reverse, ?_, fun hbase => hnormal.ups_eq_zero (hrooted.trans hbase),
      fun n hn => hnormal.isName n (List.mem_reverse.mp hn), ?_⟩
    · rw [List.reverse_reverse, ← hrooted]
    · rw [resolve_eq_render, ht, Trail.render, ← hrooted]
      cases hroot : t.rooted with
      | true =>
          have hups := hnormal.ups_eq_zero hroot
          simp [Trail.path, Trail.segments, hroot, hups]
      | false =>
          have hpath : t.path =
              join ['/'] (List.replicate t.ups ['.', '.'] ++ t.names.reverse) := by
            simp [Trail.path, Trail.segments, hroot]
          rw [if_neg Bool.false_ne_true, ← hpath]
          simp [Trail.path_eq_nil_iff hnormal, hroot]

/-- Joining in two steps is joining with the slash in between, and a result is
its own normal form. -/
theorem resolve_resolve (base a b : Text) :
    resolve (resolve base a) b = resolve base (a ++ '/' :: b) ∧
      resolve (resolve base a) [] = resolve base a := by
  have hbetween : Trail.ofPaths base (a ++ '/' :: b) = (Trail.ofPaths base a).walk (steps b) := by
    rw [Trail.ofPaths_eq, Trail.ofPaths_eq, steps_append, Trail.walk_append]
  have hnormal := Trail.normal_ofPaths base a
  simp only [resolve_eq_render]
  refine ⟨?_, ?_⟩
  · rw [hnormal.ofPaths_render, hbetween]
  · rw [hnormal.ofPaths_render]
    rfl

end Inlay.Path
