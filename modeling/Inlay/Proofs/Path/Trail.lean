import Inlay.Proofs.Path.Components
import Mathlib.Data.List.Basic
import Mathlib.Data.List.Induction

/-!
Where components lead. Each step up cancels the nearest name in front of it that
is not cancelled yet, is dropped at the root, and stays in front otherwise; what
is left is a trail. A trail has a path in normal form, and that path leads back
to the trail.
-/

namespace Inlay.Path

/-- A place that components lead to: whether it hangs from the root, how many
steps up stay in front, and the names behind them, the last one first. -/
structure Trail where
  rooted : Bool
  ups : Nat
  names : List Text
  deriving DecidableEq, Repr

namespace Trail

/-- Goes on with a component. A root on the way is no step. A step up cancels
the last name that is not cancelled yet; where there is none, it is dropped at
the root and stays in front elsewhere. -/
def push (t : Trail) : Component → Trail
  | .root => t
  | .current => t
  | .name n => { t with names := n :: t.names }
  | .parent =>
    match t.names with
    | _ :: outer => { t with names := outer }
    | [] => if t.rooted then t else { t with ups := t.ups + 1 }

def walk (t : Trail) (cs : List Component) : Trail := cs.foldl push t

/-- Where a walk starts: at the root, or wherever the path is read from. -/
def start (rooted : Bool) : Trail := ⟨rooted, 0, []⟩

/-- Where a path leads, and from there another one, even an absolute one. -/
def ofPaths (base tail : Text) : Trail :=
  (start (isRooted base)).walk (components base ++ components tail)

/-! ### The path of a trail -/

def segments (t : Trail) : List Text := List.replicate t.ups ['.', '.'] ++ t.names.reverse

def path (t : Trail) : Text :=
  if t.rooted then '/' :: Text.join ['/'] t.segments else Text.join ['/'] t.segments

/-- The components that lead to a trail from where its walk starts. -/
def steps (t : Trail) : List Component :=
  List.replicate t.ups .parent ++ t.names.reverse.map .name

/-- Nothing stays in front at the root, and names are names. -/
structure Normal (t : Trail) : Prop where
  ups_eq_zero : t.rooted = true → t.ups = 0
  isName : ∀ n ∈ t.names, IsName n

theorem rooted_push (t : Trail) (c : Component) : (t.push c).rooted = t.rooted := by
  cases c with
  | parent =>
      rw [push]
      split
      · rfl
      · split <;> rfl
  | _ => rfl

theorem Normal.push {t : Trail} {c : Component} (h : t.Normal)
    (hc : ∀ n, c = .name n → IsName n) : (t.push c).Normal := by
  cases c with
  | root => exact h
  | current => exact h
  | name n =>
      refine ⟨h.ups_eq_zero, fun m hm => ?_⟩
      rcases List.mem_cons.mp hm with rfl | hm
      · exact hc m rfl
      · exact h.isName m hm
  | parent =>
      rw [Trail.push]
      split
      · rename_i n outer hnames
        exact ⟨h.ups_eq_zero, fun m hm => h.isName m (hnames ▸ List.mem_cons_of_mem n hm)⟩
      · split
        · exact h
        · rename_i hrooted
          exact ⟨fun hroot => absurd hroot hrooted, h.isName⟩

theorem walk_append (t : Trail) (cs ds : List Component) :
    t.walk (cs ++ ds) = (t.walk cs).walk ds :=
  List.foldl_append

theorem rooted_walk (t : Trail) (cs : List Component) : (t.walk cs).rooted = t.rooted := by
  induction cs generalizing t with
  | nil => rfl
  | cons c cs ih => exact (ih (t.push c)).trans (rooted_push t c)

theorem Normal.walk {t : Trail} {cs : List Component} (h : t.Normal)
    (hcs : ∀ n, .name n ∈ cs → IsName n) : (t.walk cs).Normal := by
  induction cs generalizing t with
  | nil => exact h
  | cons c cs ih =>
      refine ih (h.push ?_) fun n hn => hcs n (List.mem_cons_of_mem c hn)
      rintro n rfl
      exact hcs n List.mem_cons_self

theorem normal_start (rooted : Bool) : (start rooted).Normal := ⟨fun _ => rfl, by simp [start]⟩

theorem isName_of_mem_components {p n : Text} (h : .name n ∈ components p) : IsName n := by
  have hsteps : .name n ∈ Path.steps p := by
    rcases components_cases p with ⟨-, hp⟩ | ⟨-, hp | hp⟩ <;> rw [hp] at h <;> simpa using h
  exact isStep_of_mem_steps hsteps

/-- The root and a `.` in front make no step. -/
theorem walk_components (t : Trail) (p : Text) : t.walk (components p) = t.walk (Path.steps p) := by
  rcases components_cases p with ⟨-, hp⟩ | ⟨-, hp | hp⟩ <;> rw [hp] <;> rfl

theorem ofPaths_eq (base tail : Text) :
    ofPaths base tail =
      ((start (isRooted base)).walk (Path.steps base)).walk (Path.steps tail) := by
  rw [ofPaths, walk_append, walk_components, walk_components]

theorem rooted_ofPaths (base tail : Text) : (ofPaths base tail).rooted = isRooted base :=
  rooted_walk _ _

theorem normal_ofPaths (base tail : Text) : (ofPaths base tail).Normal := by
  refine (normal_start _).walk fun n hn => ?_
  rcases List.mem_append.mp hn with hn | hn <;> exact isName_of_mem_components hn

/-! ### Reading the path of a trail -/

theorem Normal.notMem_of_mem_segments {t : Trail} (h : t.Normal) {s : Text}
    (hs : s ∈ t.segments) : '/' ∉ s := by
  rcases List.mem_append.mp hs with hs | hs
  · rw [List.eq_of_mem_replicate hs]
    decide
  · exact (h.isName s (List.mem_reverse.mp hs)).no_slash

theorem Normal.ne_of_mem_segments {t : Trail} (h : t.Normal) {s : Text} (hs : s ∈ t.segments) :
    s ≠ [] ∧ s ≠ ['.'] := by
  rcases List.mem_append.mp hs with hs | hs
  · rw [List.eq_of_mem_replicate hs]
    decide
  · have hname := h.isName s (List.mem_reverse.mp hs)
    exact ⟨hname.ne_nil, hname.ne_current⟩

theorem Normal.filterMap_segments {t : Trail} (h : t.Normal) :
    t.segments.filterMap Component.ofSegment = t.steps := by
  have hup : Component.ofSegment ['.', '.'] = some .parent := rfl
  have hnames : t.names.reverse.filterMap Component.ofSegment = t.names.reverse.map .name :=
    List.filterMap_eq_map_iff_forall_eq_some.mpr fun n hn =>
      (h.isName n (List.mem_reverse.mp hn)).ofSegment_eq
  rw [segments, List.filterMap_append, List.filterMap_replicate_of_some hup, hnames, steps]

theorem Normal.steps_path {t : Trail} (h : t.Normal) : Path.steps t.path = t.steps := by
  have hjoin : Path.steps t.path = Path.steps (Text.join ['/'] t.segments) := by
    unfold path
    split
    · exact steps_append [] _
    · rfl
  rw [hjoin, steps_join fun s hs => h.notMem_of_mem_segments hs, h.filterMap_segments]

theorem isRooted_join {ss : List Text} (hne : ∀ s ∈ ss, s ≠ []) (hslash : ∀ s ∈ ss, '/' ∉ s) :
    isRooted (Text.join ['/'] ss) = false := by
  cases ss with
  | nil => rfl
  | cons s ss =>
      obtain ⟨c, s, rfl⟩ := List.exists_cons_of_ne_nil (hne s List.mem_cons_self)
      have hc : c ≠ '/' := by
        rintro rfl
        exact hslash _ List.mem_cons_self List.mem_cons_self
      cases ss <;> simp [Text.join, isRooted, hc]

theorem Normal.isRooted_path {t : Trail} (h : t.Normal) : isRooted t.path = t.rooted := by
  unfold path
  split
  · rename_i hrooted
    rw [hrooted]
    rfl
  · rename_i hrooted
    rw [isRooted_join (fun s hs => (h.ne_of_mem_segments hs).1)
      fun s hs => h.notMem_of_mem_segments hs]
    simpa using hrooted

theorem Normal.head?_split_path {t : Trail} (h : t.Normal) (hrooted : t.rooted = false) :
    (Text.split '/' t.path).head? ≠ some ['.'] := by
  have hpath : t.path = Text.join ['/'] t.segments := by simp [path, hrooted]
  rw [hpath]
  by_cases hnone : t.segments = []
  · rw [hnone]
    decide
  · rw [Text.split_join hnone fun s hs => h.notMem_of_mem_segments hs]
    intro hhead
    exact (h.ne_of_mem_segments (List.mem_of_mem_head? hhead)).2 rfl

theorem Normal.components_path {t : Trail} (h : t.Normal) :
    components t.path = (if t.rooted then [.root] else []) ++ t.steps := by
  rw [← h.steps_path]
  cases hrooted : t.rooted with
  | true => exact components_of_isRooted (h.isRooted_path.trans hrooted)
  | false =>
      rw [components, if_neg (by simp [h.isRooted_path, hrooted]),
        if_neg (h.head?_split_path hrooted)]
      rfl

theorem walk_names (t : Trail) (ns : List Text) :
    t.walk (ns.map .name) = { t with names := ns.reverse ++ t.names } := by
  induction ns generalizing t with
  | nil => rfl
  | cons n ns ih =>
      calc
        t.walk ((n :: ns).map .name) = (t.push (.name n)).walk (ns.map .name) := rfl
        _ = { t with names := (n :: ns).reverse ++ t.names } := by
          rw [ih]
          simp [push]

theorem walk_ups (ups n : Nat) :
    walk ⟨false, ups, []⟩ (List.replicate n .parent) = ⟨false, ups + n, []⟩ := by
  induction n generalizing ups with
  | zero => rfl
  | succ n ih =>
      calc
        walk ⟨false, ups, []⟩ (List.replicate (n + 1) .parent)
          = walk ⟨false, ups + 1, []⟩ (List.replicate n .parent) := rfl
        _ = ⟨false, ups + (n + 1), []⟩ := by rw [ih, Nat.add_right_comm, Nat.add_assoc]

theorem walk_ups_root (n : Nat) : (start true).walk (List.replicate n .parent) = start true := by
  induction n with
  | zero => rfl
  | succ n ih => exact ih

theorem Normal.walk_steps {t : Trail} (h : t.Normal) : (start t.rooted).walk t.steps = t := by
  have hups : (start t.rooted).walk (List.replicate t.ups .parent) = ⟨t.rooted, t.ups, []⟩ := by
    cases hrooted : t.rooted with
    | true =>
        rw [h.ups_eq_zero hrooted]
        rfl
    | false =>
        have hwalk := walk_ups 0 t.ups
        rwa [Nat.zero_add] at hwalk
  rw [steps, walk_append, hups, walk_names, List.reverse_reverse, List.append_nil]

/-- The path of a trail leads back to it. -/
theorem Normal.walk_steps_path {t : Trail} (h : t.Normal) :
    (start t.rooted).walk (Path.steps t.path) = t := by
  rw [h.steps_path, h.walk_steps]

/-- A component leads on from a place that steps lead to as it does from where
these start: what it cancels there is cancelled here. -/
theorem walk_steps_push (t : Trail) {e : Trail} (he : e.rooted = false) (c : Component) :
    t.walk (e.push c).steps = (t.walk e.steps).push c := by
  cases c with
  | root => rfl
  | current => rfl
  | name n =>
      have hsteps : (e.push (.name n)).steps = e.steps ++ [.name n] := by simp [push, steps]
      rw [hsteps, walk_append]
      rfl
  | parent =>
      cases hnames : e.names with
      | cons n outer =>
          have hsteps : e.steps = (e.push .parent).steps ++ [.name n] := by
            simp [push, steps, hnames]
          rw [hsteps, walk_append]
          rfl
      | nil =>
          have hsteps : (e.push .parent).steps = e.steps ++ [.parent] := by
            simp [push, steps, hnames, he, List.replicate_succ']
          rw [hsteps, walk_append]
          rfl

/-- Where components lead from a place depends only on where they lead from a
start without a root. -/
theorem walk_steps_walk (t : Trail) (cs : List Component) :
    t.walk ((start false).walk cs).steps = t.walk cs := by
  induction cs using List.reverseRecOn with
  | nil => rfl
  | append_singleton cs c ih =>
      rw [walk_append, walk_append, ← ih]
      exact walk_steps_push t (rooted_walk _ cs) c

/-- Trails with one path are one trail. -/
theorem Normal.eq_of_path_eq {t u : Trail} (ht : t.Normal) (hu : u.Normal)
    (h : t.path = u.path) : t = u := by
  have hrooted : t.rooted = u.rooted := by rw [← ht.isRooted_path, h, hu.isRooted_path]
  rw [← ht.walk_steps_path, ← hu.walk_steps_path, h, hrooted]

end Trail

end Inlay.Path
