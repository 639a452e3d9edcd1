import Inlay.Proofs.Html.Bindings
import Inlay.Proofs.Html.Respaced

/-!
What minifying keeps of a template. White space apart, a template with its
comments comes out as it went in, exactly if no event has a property inside:
bindings are put back only once, so that the marker of a property inside an
event would stay.
-/

namespace Inlay.Html

open Text Item

/-! ### Events among items -/

/-- A part of a text with markers in which events were looked for: an item
outside of them, or the items of an event. -/
inductive Segment where
  | item (i : Item)
  | event (is : List Item)

namespace Segment

def items : Segment → List Item
  | .item i => [i]
  | .event is => is

def pieces : Segment → List (Piece Unit)
  | .item i => i.write.map .plain
  | .event is => [.hit (is.flatMap write) ()]

def markedFrom : Nat → List Segment → List Item
  | _, [] => []
  | n, .item i :: segments => i :: markedFrom n segments
  | n, .event _ :: segments => .mark n :: markedFrom (n + 1) segments

def events (segments : List Segment) : List Text :=
  segments.filterMap fun
    | .item _ => none
    | .event is => some (is.flatMap write)

end Segment

open Segment

theorem pieces_event?_append {a : Text} (ha : ∀ c ∈ a, isBlank c = false) (t : Text) :
    Text.pieces event? (a ++ t) = a.map .plain ++ Text.pieces event? t := by
  induction a with
  | nil => rfl
  | cons c a ih =>
      have hc := event?_eq_none (t := a ++ t) (ha c List.mem_cons_self)
      rw [List.cons_append, pieces_plain hc, ih fun d hd => ha d (List.mem_cons_of_mem c hd)]
      rfl

/-- A quote is never part of a marker, so that a text that is cut behind one is
cut between items. -/
theorem exists_split_items {is : List Item} {front rest : Text}
    (h : is.flatMap write = front ++ '"' :: rest) :
    ∃ inside outside, is = inside ++ outside ∧ inside.flatMap write = front ++ ['"'] ∧
      outside.flatMap write = rest := by
  induction is generalizing front with
  | nil => simp at h
  | cons i is ih =>
      cases i with
      | char c =>
          cases front with
          | nil =>
              obtain ⟨rfl, hrest⟩ := List.cons.inj h
              exact ⟨[.char '"'], is, rfl, rfl, hrest⟩
          | cons d front =>
              obtain ⟨rfl, htail⟩ := List.cons.inj h
              obtain ⟨inside, outside, rfl, hinside, houtside⟩ := ih htail
              exact ⟨.char c :: inside, outside, rfl, congrArg (c :: ·) hinside, houtside⟩
      | mark n =>
          have hn : '"' ∉ marker n := quote_not_mem_marker n
          rw [List.flatMap_cons, write] at h
          rcases List.append_eq_append_iff.mp h with ⟨more, hfront, htail⟩ | ⟨more, hmarker, htail⟩
          · obtain ⟨inside, outside, rfl, hinside, houtside⟩ := ih htail
            refine ⟨.mark n :: inside, outside, rfl, ?_, houtside⟩
            rw [List.flatMap_cons, write, hinside, hfront, List.append_assoc]
          · cases more with
            | nil =>
                obtain ⟨inside, outside, rfl, hinside, houtside⟩ := @ih [] htail.symm
                refine ⟨.mark n :: inside, outside, rfl, ?_, houtside⟩
                rw [List.flatMap_cons, write, hinside, hmarker, List.append_nil]
                rfl
            | cons d more =>
                obtain ⟨rfl, -⟩ := List.cons.inj htail
                exact absurd (by simp [hmarker]) hn

/-- Events are found in a text with markers as segments of its items. -/
theorem exists_segments (is : List Item) :
    ∃ segments : List Segment, segments.flatMap items = is ∧
      Text.pieces event? (is.flatMap write) = segments.flatMap Segment.pieces := by
  -- on the length, since an event takes many items at once
  induction hn : is.length using Nat.strongRecOn generalizing is with
  | _ n ih =>
      cases is with
      | nil => exact ⟨[], rfl, rfl⟩
      | cons i is =>
          have hskip : Text.pieces event? (i.write ++ is.flatMap write) =
                i.write.map .plain ++ Text.pieces event? (is.flatMap write) →
              ∃ segments : List Segment, segments.flatMap items = i :: is ∧
                Text.pieces event? ((i :: is).flatMap write) = segments.flatMap Segment.pieces := by
            intro h
            obtain ⟨segments, rfl, hpieces⟩ := ih is.length (by simp [← hn]) is rfl
            refine ⟨.item i :: segments, rfl, ?_⟩
            rw [List.flatMap_cons, List.flatMap_cons, h, hpieces, Segment.pieces]
          cases i with
          | mark m => exact hskip (pieces_event?_append (fun _ => isBlank_of_mem_marker) _)
          | char c =>
              cases hevent : event? (c :: is.flatMap write) with
              | none => exact hskip (pieces_plain hevent)
              | some found =>
                  obtain ⟨_, rest⟩ := found
                  obtain ⟨blank, front, -, ht⟩ :=
                    eq_append_of_binding? (fun _ _ => eq_append_of_eventEnd?) hevent
                  have hitems : (Item.char c :: is).flatMap write =
                      (blank :: front) ++ '"' :: rest := ht
                  obtain ⟨inside, outside, his, hinside, rfl⟩ := exists_split_items hitems
                  have hne : inside.flatMap write ≠ [] := by simp [hinside]
                  have hshort : outside.length < n := by
                    have hpos : inside ≠ [] := by
                      rintro rfl
                      exact hne rfl
                    rw [← hn, his, List.length_append]
                    have hlen := List.length_pos_iff.mpr hpos
                    omega
                  obtain ⟨segments, rfl, hpieces⟩ := ih outside.length hshort outside rfl
                  refine ⟨.event inside :: segments, his.symm, ?_⟩
                  have htext : (Item.char c :: is).flatMap write =
                      inside.flatMap write ++ (segments.flatMap items).flatMap write := by
                    rw [his, List.flatMap_append]
                  have hhit : event? (inside.flatMap write ++
                      (segments.flatMap items).flatMap write) =
                        some ((), (segments.flatMap items).flatMap write) := by
                    rw [← htext]
                    exact hevent
                  rw [htext, pieces_hit hne hhit, hpieces]
                  rfl

/-! ### Marking events -/

theorem withMarkers_map_plain_append (n : Nat) (t : Text) (ps : List (Piece Unit)) :
    withMarkers n (t.map .plain ++ ps) = t ++ withMarkers n ps := by
  induction t with
  | nil => rfl
  | cons c t ih => simp [withMarkers, ih]

theorem withMarkers_segments (n : Nat) (segments : List Segment) :
    withMarkers n (segments.flatMap Segment.pieces) = (markedFrom n segments).flatMap write := by
  induction segments generalizing n with
  | nil => rfl
  | cons segment segments ih =>
      cases segment with
      | item i =>
          simp only [List.flatMap_cons, Segment.pieces, withMarkers_map_plain_append, ih,
            markedFrom]
      | event is => simp [Segment.pieces, withMarkers, markedFrom, write, ih]

theorem found_segments (segments : List Segment) :
    found (segments.flatMap Segment.pieces) = events segments := by
  have hplain : ∀ (t : Text) (ps : List (Piece Unit)), found (t.map .plain ++ ps) = found ps := by
    intro t ps
    induction t with
    | nil => rfl
    | cons c t ih => exact ih
  induction segments with
  | nil => rfl
  | cons segment segments ih =>
      cases segment with
      | item i => exact (hplain i.write _).trans ih
      | event is => exact congrArg (is.flatMap write :: ·) ih

theorem clean_markedFrom {n : Nat} {segments : List Segment}
    (h : Clean (segments.flatMap items)) : Clean (markedFrom n segments) := by
  induction segments generalizing n with
  | nil => simp [markedFrom, Clean]
  | cons segment segments ih =>
      have htail : Clean (segments.flatMap items) :=
        fun c hc => h c (List.mem_append_right _ hc)
      intro c hc
      cases segment with
      | item i =>
          rcases List.mem_cons.mp hc with rfl | hc
          · exact h c List.mem_cons_self
          · exact ih htail c hc
      | event is =>
          rcases List.mem_cons.mp hc with heq | hc
          · contradiction
          · exact ih htail c hc

/-- When no event holds a marker, putting the events back gives the text in
which they were marked. -/
theorem flatMap_expand_markedFrom {n : Nat} {segments : List Segment} {bindings : List Text}
    (hevents : ∀ e ∈ events segments, markerOpen ∉ e)
    (hbindings : bindings.drop n = events segments) :
    (markedFrom n segments).flatMap (expand bindings) =
      (segments.flatMap items).flatMap (expand bindings) := by
  induction segments generalizing n with
  | nil => rfl
  | cons segment segments ih =>
      cases segment with
      | item i => simpa [markedFrom, items] using ih hevents hbindings
      | event is =>
          obtain ⟨hat, hrest⟩ := getElem?_of_drop_eq_cons (a := is.flatMap write) hbindings
          have hplain := write_eq_expand (hevents _ List.mem_cons_self) bindings
          have htail := ih (fun e he => hevents e (List.mem_cons_of_mem _ he)) hrest
          rw [markedFrom, List.flatMap_cons, List.flatMap_cons, List.flatMap_append, htail,
            expand, hat, Option.getD_some, hplain, items]

theorem event_mark_mem_markedFrom {n i : Nat} {segments : List Segment}
    (hi : i < (events segments).length) : .mark (n + i) ∈ markedFrom n segments := by
  induction segments generalizing n i with
  | nil => simp [events] at hi
  | cons segment segments ih =>
      cases segment with
      | item j => exact List.mem_cons_of_mem _ (ih hi)
      | event is =>
          cases i with
          | zero => exact List.mem_cons_self
          | succ i =>
              have hmem := ih (n := n + 1) (i := i) (by simpa [events] using hi)
              rw [show n + 1 + i = n + (i + 1) by omega] at hmem
              exact List.mem_cons_of_mem _ hmem

/-- The markers of properties outside of events stay. -/
theorem property_mark_mem_markedFrom {n m : Nat} {segments : List Segment}
    (hevents : ∀ e ∈ events segments, markerOpen ∉ e)
    (hm : .mark m ∈ segments.flatMap items) : .mark m ∈ markedFrom n segments := by
  induction segments generalizing n with
  | nil => simp at hm
  | cons segment segments ih =>
      rw [List.flatMap_cons, List.mem_append] at hm
      cases segment with
      | item i =>
          rcases hm with hm | hm
          · obtain rfl := List.mem_singleton.mp hm
            exact List.mem_cons_self
          · exact List.mem_cons_of_mem _ (ih hevents hm)
      | event is =>
          rcases hm with hm | hm
          · refine absurd ?_ (hevents (is.flatMap write) List.mem_cons_self)
            exact List.mem_flatMap.mpr ⟨.mark m, hm, by simp [write, marker]⟩
          · exact List.mem_cons_of_mem _
              (ih (fun e he => hevents e (List.mem_cons_of_mem _ he)) hm)

/-! ### White space around items -/

/-- Changing white space keeps the markers, and commutes with putting bindings
back. -/
theorem exists_items_of_respaced (bindings : List Text) {is : List Item} (his : Clean is)
    {u : Text} (h : Respaced (is.flatMap write) u) :
    ∃ js, u = js.flatMap write ∧ Clean js ∧
      Respaced (is.flatMap (expand bindings)) (js.flatMap (expand bindings)) ∧
      ∀ n, .mark n ∈ is → .mark n ∈ js := by
  induction is generalizing u with
  | nil =>
      cases h
      exact ⟨[], rfl, his, .nil, by simp⟩
  | cons i is ih =>
      cases i with
      | mark n =>
          obtain ⟨v, rfl, hv⟩ := h.exists_append fun _ => isBlank_of_mem_marker
          obtain ⟨js, rfl, hjs, hrespaced, hmarks⟩ := ih his.tail hv
          refine ⟨.mark n :: js, rfl, ?_, (Respaced.refl _).append hrespaced, ?_⟩
          · intro c hc
            rcases List.mem_cons.mp hc with heq | hc
            · contradiction
            · exact hjs c hc
          · intro m hm
            rcases List.mem_cons.mp hm with heq | hm
            · exact heq ▸ List.mem_cons_self
            · exact List.mem_cons_of_mem _ (hmarks m hm)
      | char c =>
          have hchar : ∀ d js, d ≠ markerOpen → Clean js → Clean (.char d :: js) := by
            intro d js hd hjs e he
            rcases List.mem_cons.mp he with heq | he
            · exact Item.char.inj heq ▸ hd
            · exact hjs e he
          have hmark : ∀ n, .mark n ∈ Item.char c :: is → .mark n ∈ is := by simp
          cases h with
          | keep _ h =>
              obtain ⟨js, rfl, hjs, hrespaced, hmarks⟩ := ih his.tail h
              exact ⟨.char c :: js, rfl, hchar c js (his c List.mem_cons_self) hjs,
                .keep c hrespaced, fun n hn => List.mem_cons_of_mem _ (hmarks n (hmark n hn))⟩
          | drop hc h =>
              obtain ⟨js, rfl, hjs, hrespaced, hmarks⟩ := ih his.tail h
              exact ⟨js, rfl, hjs, .drop hc hrespaced, fun n hn => hmarks n (hmark n hn)⟩
          | space hc h =>
              obtain ⟨js, rfl, hjs, hrespaced, hmarks⟩ := ih his.tail h
              exact ⟨.char ' ' :: js, rfl, hchar ' ' js (by decide) hjs, .space hc hrespaced,
                fun n hn => List.mem_cons_of_mem _ (hmarks n (hmark n hn))⟩

/-! ### Whole templates -/

/-- The outcome of minifying, with its bindings back, against the items between
which the events were marked. -/
theorem exists_segments_minify {s : Settings} (hcase : s.keepCase = true)
    (hcomments : s.dropComments = false) {html : Text} (hopen : markerOpen ∉ html) :
    ∃ (segments : List Segment) (js : List Item),
      (protect html).bindings = found (Text.pieces property? html) ++ events segments ∧
      segments.flatMap items = itemsFrom 0 (Text.pieces property? html) ∧
      s.minify html = js.flatMap (expand (protect html).bindings) ∧
      Respaced ((markedFrom (found (Text.pieces property? html)).length segments).flatMap
        (expand (protect html).bindings)) (s.minify html) ∧
      ∀ n, .mark n ∈ markedFrom (found (Text.pieces property? html)).length segments →
        .mark n ∈ js := by
  obtain ⟨segments, hitems, hpieces⟩ :=
    exists_segments (itemsFrom 0 (Text.pieces property? html))
  have hclean : Clean (segments.flatMap items) := by
    rw [hitems]
    apply clean_itemsFrom
    rwa [flatMap_raw_pieces takesFront_property?]
  have hbindings : (protect html).bindings =
      found (Text.pieces property? html) ++ events segments := by
    simp only [protect]
    rw [withMarkers_eq, hpieces, found_segments]
  have htext : (protect html).text =
      (markedFrom (found (Text.pieces property? html)).length segments).flatMap write := by
    simp only [protect]
    rw [withMarkers_eq 0, hpieces, withMarkers_segments]
  have hrendered := s.respaced_render hcase (protect html).text
  rw [hcomments, htext] at hrendered
  obtain ⟨js, hjs, hjsClean, hrespaced, hmarks⟩ :=
    exists_items_of_respaced (protect html).bindings (clean_markedFrom hclean) hrendered
  have hminify : s.minify html = js.flatMap (expand (protect html).bindings) := by
    simp only [Settings.minify]
    rw [htext, hjs, restore_flatMap_write _ hjsClean]
  exact ⟨segments, js, hbindings, hitems, hminify, hminify ▸ hrespaced, hmarks⟩

theorem infix_flatMap_expand {bindings : List Text} {js : List Item} {n : Nat} {b : Text}
    (hn : .mark n ∈ js) (hb : bindings[n]? = some b) : b <:+: js.flatMap (expand bindings) := by
  obtain ⟨before, behind, rfl⟩ := List.append_of_mem hn
  refine ⟨before.flatMap (expand bindings), behind.flatMap (expand bindings), ?_⟩
  simp [expand, hb]

/-- With comments and the case of names kept, minifying a template that has no
marker characters neither loses nor adds nor moves anything but white space
exactly if no binding has the marker of another one inside. No marker is left
then, and each binding is kept as it was. -/
theorem minify_keeps_content_iff (collapse : Bool) (html : Text) (hopen : markerOpen ∉ html)
    (hclose : markerClose ∉ html) :
    (inked (Settings.minify ⟨true, collapse, false⟩ html) = inked html ↔
      ∀ b ∈ (protect html).bindings, markerOpen ∉ b) ∧
    ((∀ b ∈ (protect html).bindings, markerOpen ∉ b) →
      markerOpen ∉ Settings.minify ⟨true, collapse, false⟩ html ∧
      markerClose ∉ Settings.minify ⟨true, collapse, false⟩ html ∧
      ∀ b ∈ (protect html).bindings, b <:+: Settings.minify ⟨true, collapse, false⟩ html) := by
  obtain ⟨segments, js, hbindings, hitems, hminify, hrespaced, hmarks⟩ :=
    exists_segments_minify (s := ⟨true, collapse, false⟩) rfl rfl hopen
  have hproperties : (itemsFrom 0 (Text.pieces property? html)).flatMap
      (expand (protect html).bindings) = html := by
    rw [flatMap_expand_itemsFrom (List.drop_zero.trans hbindings),
      flatMap_raw_pieces takesFront_property?]
  have hevent : ∀ e ∈ events segments, e <:+: Settings.minify ⟨true, collapse, false⟩ html := by
    intro e he
    obtain ⟨i, hi⟩ := List.mem_iff_getElem?.mp he
    rw [hminify]
    refine infix_flatMap_expand (hmarks _ (event_mark_mem_markedFrom
      (List.getElem?_eq_some_iff.mp hi).1)) ?_
    rwa [hbindings, List.getElem?_append_right (Nat.le_add_right _ _), Nat.add_sub_cancel_left]
  -- without a marker in an event, all bindings are put back
  have hwhole : (∀ b ∈ (protect html).bindings, markerOpen ∉ b) →
      inked (Settings.minify ⟨true, collapse, false⟩ html) = inked html := by
    intro hplain
    have hevents : ∀ e ∈ events segments, markerOpen ∉ e :=
      fun e he => hplain e (hbindings ▸ List.mem_append_right _ he)
    rw [flatMap_expand_markedFrom hevents (by rw [hbindings, List.drop_left]), hitems,
      hproperties] at hrespaced
    exact hrespaced.inked_eq
  refine ⟨⟨fun hinked b hb hmarker => hopen ?_, hwhole⟩, fun hplain => ⟨?_, ?_, ?_⟩⟩
  -- a marker inside a binding comes from the template or reaches the outcome
  · rcases List.mem_append.mp (hbindings ▸ hb) with hb | hb
    · obtain ⟨n, hmark, hn⟩ := exists_mark_of_mem_found hbindings hb
      have hinfix := infix_flatMap_expand hmark hn
      rw [hproperties] at hinfix
      exact hinfix.subset hmarker
    · have hleft := (hevent b hb).subset hmarker
      rwa [← mem_inked rfl, hinked, mem_inked rfl] at hleft
  · rwa [← mem_inked (c := markerOpen) rfl, hwhole hplain, mem_inked rfl]
  · rwa [← mem_inked (c := markerClose) rfl, hwhole hplain, mem_inked rfl]
  · intro b hb
    rcases List.mem_append.mp (hbindings ▸ hb) with hfound | hfound
    · obtain ⟨n, hmark, hn⟩ := exists_mark_of_mem_found hbindings hfound
      rw [hminify]
      refine infix_flatMap_expand (hmarks n (property_mark_mem_markedFrom ?_ (hitems ▸ hmark))) hn
      exact fun e he => hplain e (hbindings ▸ List.mem_append_right _ he)
    · exact hevent b hfound

theorem minify_keeps_content_iff_two_bindings :
    markerOpen ∉ "<input\n  [value]=\"name\"\n  (input)=\"name = $event\">".toList ∧
      inked (Settings.minify ⟨true, true, false⟩
        "<input\n  [value]=\"name\"\n  (input)=\"name = $event\">".toList) =
      inked "<input\n  [value]=\"name\"\n  (input)=\"name = $event\">".toList :=
  have hopen : markerOpen ∉
      "<input\n  [value]=\"name\"\n  (input)=\"name = $event\">".toList := by decide +kernel
  have hiff := minify_keeps_content_iff true _ hopen (by decide +kernel)
  ⟨hopen, hiff.1.mpr (by decide +kernel)⟩

/-- The marker of a property that an event reaches over is left behind. -/
theorem minify_loses_property_in_event :
    markerOpen ∉ "<a (b [c]=\"d\")=\"e\">".toList ∧
      markerClose ∉ "<a (b [c]=\"d\")=\"e\">".toList ∧
      markerOpen ∈ Settings.minify ⟨true, true, false⟩ "<a (b [c]=\"d\")=\"e\">".toList ∧
      inked (Settings.minify ⟨true, true, false⟩ "<a (b [c]=\"d\")=\"e\">".toList) ≠
        inked "<a (b [c]=\"d\")=\"e\">".toList := by
  decide +kernel

end Inlay.Html
