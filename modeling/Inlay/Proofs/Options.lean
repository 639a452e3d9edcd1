import Inlay.Config
import Inlay.Proofs.Json.Objects
import Mathlib.Data.List.Forall2

/-!
Options that are read from JSON in two ways: at once, or as a configuration
that leaves options unset and is filled in with defaults afterwards. Both know
the same fields. Member by member, the filled-in configuration stays equal to
the options that were read at once, as long as no known field is null; a null
is refused in the one way and leaves its option unset in the other.
-/

namespace Inlay

open Json (Object Member Shape Values given Fresh)

/-! ### Fields that were left out -/

structure Options.DefaultsOutside (names : List Text) (o : Options) : Prop where
  base : "base".toList ∉ names → o.base = "./".toList
  relative : "relative".toList ∉ names → o.relative = false
  includePaths : "include_paths".toList ∉ names → o.includePaths = []
  compress : "compress".toList ∉ names → o.compress = false
  templatesOnly : "parse_only_template".toList ∉ names → o.templatesOnly = false
  lessCommand : "less_command".toList ∉ names → o.lessCommand = "lessc".toList

namespace Config

structure UnsetOutside (names : List Text) (c : Config) : Prop where
  base : "base".toList ∉ names → c.base = none
  relative : "relative".toList ∉ names → c.relative = none
  includePaths : "include_paths".toList ∉ names → c.includePaths = none
  compress : "compress".toList ∉ names → c.compress = none
  templatesOnly : "parse_only_template".toList ∉ names → c.templatesOnly = none
  lessCommand : "less_command".toList ∉ names → c.lessCommand = none

theorem unsetOutside_blank (names : List Text) : UnsetOutside names {} :=
  ⟨fun _ => rfl, fun _ => rfl, fun _ => rfl, fun _ => rfl, fun _ => rfl, fun _ => rfl⟩

namespace UnsetOutside

variable {names more : List Text} {c : Config}

theorem mono (h : c.UnsetOutside names) (hmore : names ⊆ more) : c.UnsetOutside more where
  base hname := h.base fun hmem => hname (hmore hmem)
  relative hname := h.relative fun hmem => hname (hmore hmem)
  includePaths hname := h.includePaths fun hmem => hname (hmore hmem)
  compress hname := h.compress fun hmem => hname (hmore hmem)
  templatesOnly hname := h.templatesOnly fun hmem => hname (hmore hmem)
  lessCommand hname := h.lessCommand fun hmem => hname (hmore hmem)

theorem cons (h : c.UnsetOutside names) (name : Text) : c.UnsetOutside (name :: names) :=
  h.mono (List.subset_cons_self name names)

/-- What a configuration leaves unset becomes the default. -/
theorem toOptions (h : c.UnsetOutside names) : c.toOptions.DefaultsOutside names where
  base hname := by rw [Config.toOptions, h.base hname]; rfl
  relative hname := by rw [Config.toOptions, h.relative hname]; rfl
  includePaths hname := by rw [Config.toOptions, h.includePaths hname]; rfl
  compress hname := by rw [Config.toOptions, h.compress hname]; rfl
  templatesOnly hname := by rw [Config.toOptions, h.templatesOnly hname]; rfl
  lessCommand hname := by rw [Config.toOptions, h.lessCommand hname]; rfl

end UnsetOutside

end Config

/-! ### Fields of both kinds -/

/-- A field of the options and the one of that name in a configuration, which
may be null. What is put into the configuration is what is set in the options,
it touches no other field, and a null touches none. -/
inductive Paired : Json.Field Options → Json.Field Config → Prop
  | mk {name : Text} {shape : Shape} {set : shape.Value → Options → Options}
      {put : Option shape.Value → Config → Config} (required : shape.isOptional = false)
      (agrees : ∀ v c, (put (some v) c).toOptions = set v c.toOptions)
      (keeps : ∀ v c names, c.UnsetOutside names → (put v c).UnsetOutside (name :: names))
      (leaves : ∀ c names, c.UnsetOutside names → name ∉ names → put none c = c) :
      Paired ⟨name, shape, set⟩ ⟨name, .optional shape, put⟩

namespace Paired

variable {field : Json.Field Options} {setting : Json.Field Config} (h : Paired field setting)
include h

theorem name_eq : field.name = setting.name := by
  cases h
  rfl

variable {values : Values} (hvalues : values.Lawful)
include hvalues

/-- A null is refused among options. It leaves a setting unset that is unset. -/
theorem null_cases : (values field.shape Json.null).map field.set = none ∧
    ∃ put, (values setting.shape Json.null).map setting.set = some put ∧
      (∀ c names, c.UnsetOutside names → (put c).UnsetOutside (setting.name :: names)) ∧
      ∀ c names, c.UnsetOutside names → setting.name ∉ names → put c = c := by
  cases h with
  | @mk name shape set put required _ keeps leaves =>
      refine ⟨?_, put none, ?_, keeps none, leaves⟩
      · rw [hvalues.required shape required, Option.map_none]
      · rw [hvalues.missing shape, Option.map_some]

/-- Any other value is refused by both or changes both alike. -/
theorem given_cases {v : Text} (hv : Json.IsValue v) (hnull : v ≠ Json.null) :
    ((values field.shape v).map field.set = none ∧
        (values setting.shape v).map setting.set = none) ∨
      ∃ set put, (values field.shape v).map field.set = some set ∧
        (values setting.shape v).map setting.set = some put ∧
        (∀ c, (put c).toOptions = set c.toOptions) ∧
        ∀ c names, c.UnsetOutside names → (put c).UnsetOutside (setting.name :: names) := by
  cases h with
  | @mk name shape set put _ agrees keeps _ =>
      rw [hvalues.given shape v hv hnull]
      cases values shape v with
      | none => exact .inl ⟨rfl, rfl⟩
      | some value => exact .inr ⟨set value, put (some value), rfl, rfl, agrees value, keeps _⟩

end Paired

/-- Both know the same fields, in the same order. -/
theorem fields_paired : List.Forall₂ Paired Options.record.fields Config.record.fields := by
  have own : ∀ {name : Text} {names : List Text} {p : Prop}, name ∉ name :: names → p :=
    fun hname => absurd List.mem_cons_self hname
  refine .cons ?_ (.cons ?_ (.cons ?_ (.cons ?_ (.cons ?_ (.cons ?_ .nil)))))
  · exact .mk rfl (fun _ _ => rfl)
      (fun _ _ _ hc => { hc.cons _ with base := own })
      fun c _ hc hname => congrArg (fun v => { c with base := v }) (hc.base hname).symm
  · exact .mk rfl (fun _ _ => rfl)
      (fun _ _ _ hc => { hc.cons _ with relative := own })
      fun c _ hc hname => congrArg (fun v => { c with relative := v }) (hc.relative hname).symm
  · exact .mk rfl (fun _ _ => rfl)
      (fun _ _ _ hc => { hc.cons _ with includePaths := own })
      fun c _ hc hname =>
        congrArg (fun v => { c with includePaths := v }) (hc.includePaths hname).symm
  · exact .mk rfl (fun _ _ => rfl)
      (fun _ _ _ hc => { hc.cons _ with compress := own })
      fun c _ hc hname => congrArg (fun v => { c with compress := v }) (hc.compress hname).symm
  · exact .mk rfl (fun _ _ => rfl)
      (fun _ _ _ hc => { hc.cons _ with templatesOnly := own })
      fun c _ hc hname =>
        congrArg (fun v => { c with templatesOnly := v }) (hc.templatesOnly hname).symm
  · exact .mk rfl (fun _ _ => rfl)
      (fun _ _ _ hc => { hc.cons _ with lessCommand := own })
      fun c _ hc hname =>
        congrArg (fun v => { c with lessCommand := v }) (hc.lessCommand hname).symm

theorem Config.names_record : Config.record.names = Options.record.names := rfl

/-- A name is known to both or to none. -/
theorem find?_paired {fields : List (Json.Field Options)} {settings : List (Json.Field Config)}
    (h : List.Forall₂ Paired fields settings) (name : Text) :
    (fields.find? (·.name = name) = none ∧ settings.find? (·.name = name) = none) ∨
      ∃ field setting, fields.find? (·.name = name) = some field ∧
        settings.find? (·.name = name) = some setting ∧ Paired field setting := by
  induction h with
  | nil => exact .inl ⟨rfl, rfl⟩
  | @cons field setting fields settings hpair _ ih =>
      have heq := hpair.name_eq
      by_cases hname : setting.name = name
      · exact .inr ⟨field, setting, List.find?_cons_of_pos (by simp [heq, hname]),
          List.find?_cons_of_pos (by simp [hname]), hpair⟩
      · rwa [List.find?_cons_of_neg (by simp [heq, hname]),
          List.find?_cons_of_neg (by simp [hname])]

/-! ### Member by member -/

def Json.Member.isNullOf (names : List Text) (m : Member) : Bool :=
  m.name?.any names.contains && m.value = Json.null

def Json.Object.withoutNulls (names : List Text) (obj : Object) : Object :=
  obj.keep fun m => !m.isNullOf names

/-- What a member does in both ways: it is refused, or its field is not known,
or it is a null, or it sets an option. -/
inductive MemberStep (values : Values) (m : Member) : Prop
  | refused (kept : m.isNullOf Options.record.names = false)
      (options : Options.record.change? values m = none)
      (config : Config.record.change? values m = none)
  | unknown {name : Text} (name? : m.name? = some name) (unknown : name ∉ Options.record.names)
      (kept : m.isNullOf Options.record.names = false)
      (options : Options.record.change? values m = some id)
      (config : Config.record.change? values m = some id)
  | null {name : Text} {put : Config → Config} (name? : m.name? = some name)
      (known : name ∈ Options.record.names) (dropped : m.isNullOf Options.record.names = true)
      (options : Options.record.change? values m = none)
      (config : Config.record.change? values m = some put)
      (keeps : ∀ c names, c.UnsetOutside names → (put c).UnsetOutside (name :: names))
      (leaves : ∀ c names, c.UnsetOutside names → name ∉ names → put c = c)
  | set {name : Text} {set : Options → Options} {put : Config → Config}
      (name? : m.name? = some name) (known : name ∈ Options.record.names)
      (kept : m.isNullOf Options.record.names = false)
      (options : Options.record.change? values m = some set)
      (config : Config.record.change? values m = some put)
      (agrees : ∀ c, (put c).toOptions = set c.toOptions)
      (keeps : ∀ c names, c.UnsetOutside names → (put c).UnsetOutside (name :: names))

section Steps

variable {values : Values} (hvalues : values.Lawful)
include hvalues

theorem memberStep {m : Member} (hv : Json.IsValue m.value) : MemberStep values m := by
  cases hname : m.name? with
  | none =>
      exact .refused (by simp [Member.isNullOf, hname]) (Json.Record.change?_of_none hname)
        (Json.Record.change?_of_none hname)
  | some name =>
      rcases find?_paired fields_paired name with
        ⟨hfield, hsetting⟩ | ⟨field, setting, hfield, hsetting, hpair⟩
      · have hunknown := Json.Record.find?_eq_none_iff.mp hfield
        exact .unknown hname hunknown (by simp [Member.isNullOf, hname, hunknown])
          (Json.Record.change?_of_unknown hname hfield)
          (Json.Record.change?_of_unknown hname hsetting)
      · have hoptions : Options.record.change? values m =
            (values field.shape m.value).map field.set :=
          Json.Record.change?_of_known hname hfield
        have hconfig : Config.record.change? values m =
            (values setting.shape m.value).map setting.set :=
          Json.Record.change?_of_known hname hsetting
        obtain ⟨hmem, rfl⟩ := Json.Record.name_eq_of_find? hsetting
        have hknown : setting.name ∈ Options.record.names :=
          Config.names_record ▸ List.mem_map_of_mem hmem
        by_cases hnull : m.value = Json.null
        · obtain ⟨hrefused, put, hput, hkeeps, hleaves⟩ := hpair.null_cases hvalues
          rw [← hnull] at hrefused hput
          exact .null hname hknown (by simp [Member.isNullOf, hname, hknown, hnull])
            (hoptions.trans hrefused) (hconfig.trans hput) hkeeps hleaves
        · have hkept : m.isNullOf Options.record.names = false := by
            simp [Member.isNullOf, hnull]
          rcases hpair.given_cases hvalues hv hnull with
            ⟨hfield, hsetting⟩ | ⟨set, put, hset, hput, hagrees, hkeeps⟩
          · exact .refused hkept (hoptions.trans hfield) (hconfig.trans hsetting)
          · exact .set hname hknown hkept (hoptions.trans hset) (hconfig.trans hput) hagrees hkeeps

/-- The filled-in configuration is what the options are without the nulls. -/
theorem Config.toOptions_assign {members : List Member}
    (hmembers : ∀ m ∈ members, Json.IsValue m.value)
    {seen : List Text} (hfresh : Fresh Options.record.names seen members) {c : Config}
    (hc : c.UnsetOutside seen) :
    (Config.record.assign values c members).map Config.toOptions =
      Options.record.assign values c.toOptions
        (members.filter fun m => !m.isNullOf Options.record.names) := by
  induction members generalizing seen c with
  | nil => rfl
  | cons m members ih =>
      rw [List.forall_mem_cons] at hmembers
      cases memberStep hvalues hmembers.1 with
      | refused hkept hoptions hconfig =>
          rw [List.filter_cons_of_pos (by simp [hkept]), Json.Record.assign, Json.Record.assign,
            hoptions, hconfig]
          rfl
      | unknown hname hunknown hkept hoptions hconfig =>
          have hfresh := (Json.fresh_cons_of_unknown hname hunknown).mp hfresh
          rw [List.filter_cons_of_pos (by simp [hkept]), Json.Record.assign, Json.Record.assign,
            hoptions, hconfig]
          exact ih hmembers.2 hfresh hc
      | @null name put hname hknown hdropped hoptions hconfig hkeeps hleaves =>
          -- no earlier member has set this option, or it would be given twice
          obtain ⟨hseen, hfresh⟩ := (Json.fresh_cons_of_known hname hknown).mp hfresh
          rw [List.filter_cons_of_neg (by simp [hdropped]), Json.Record.assign, hconfig,
            Option.bind_some, hleaves c seen hc hseen]
          exact ih hmembers.2 hfresh (hc.cons name)
      | set hname hknown hkept hoptions hconfig hagrees hkeeps =>
          obtain ⟨-, hfresh⟩ := (Json.fresh_cons_of_known hname hknown).mp hfresh
          rw [List.filter_cons_of_pos (by simp [hkept]), Json.Record.assign, Json.Record.assign,
            hoptions, hconfig, Option.bind_some, Option.bind_some, ← hagrees]
          exact ih hmembers.2 hfresh (hkeeps c seen hc)

/-- Options that were read at once had no nulls. -/
theorem Options.isNullOf_eq_false {members : List Member}
    (hmembers : ∀ m ∈ members, Json.IsValue m.value)
    {o o' : Options} (h : Options.record.assign values o members = some o') :
    ∀ m ∈ members, m.isNullOf Options.record.names = false := by
  induction members generalizing o with
  | nil => simp
  | cons m members ih =>
      rw [List.forall_mem_cons] at hmembers
      rw [Json.Record.assign, Option.bind_eq_some_iff] at h
      obtain ⟨change, hchange, hrest⟩ := h
      refine List.forall_mem_cons.mpr ⟨?_, ih hmembers.2 hrest⟩
      cases memberStep hvalues hmembers.1 with
      | refused hkept | unknown _ _ hkept | set _ _ hkept => exact hkept
      | null _ _ _ hoptions => simp [hoptions] at hchange

/-- Only options whose names are given are set. -/
theorem Config.unsetOutside_assign {members : List Member}
    (hmembers : ∀ m ∈ members, Json.IsValue m.value)
    {seen : List Text} {c c' : Config} (hc : c.UnsetOutside seen)
    (h : Config.record.assign values c members = some c') :
    c'.UnsetOutside (given Options.record.names members ++ seen) := by
  induction members generalizing seen c with
  | nil =>
      obtain rfl := Option.some.inj h
      exact hc
  | cons m members ih =>
      rw [List.forall_mem_cons] at hmembers
      rw [Json.Record.assign, Option.bind_eq_some_iff] at h
      obtain ⟨change, hchange, hrest⟩ := h
      cases memberStep hvalues hmembers.1 with
      | refused _ _ hconfig => simp [hconfig] at hchange
      | unknown hname hunknown _ _ hconfig =>
          rw [hconfig] at hchange
          obtain rfl := Option.some.inj hchange
          rw [Json.given_cons_of_unknown hname hunknown]
          exact ih hmembers.2 hc hrest
      | null hname hknown _ _ hconfig hkeeps | set hname hknown _ _ hconfig _ hkeeps =>
          rw [hconfig] at hchange
          obtain rfl := Option.some.inj hchange
          rw [Json.given_cons_of_known hname hknown]
          refine (ih hmembers.2 (hkeeps c seen hc) hrest).mono fun name hmem => ?_
          simpa [or_left_comm] using hmem

end Steps

/-! ### Both readers -/

section Readers

variable {values : Values} {options : Text → Except Json.Complaint Options}
  {formats : Config.Formats} {name : Text} {obj : Object}

theorem Options.toOption_parse (hoptions : Options.record.ReadBy values {} options)
    (obj : Object) :
    (options obj.text).toOption =
      if (given Options.record.names obj.members).Nodup then
        Options.record.assign values {} obj.members
      else none :=
  (hoptions obj).trans (Options.record.visit_blank_eq values {} obj.members)

theorem Config.toOption_parse_json (formats : Config.Formats) (name content : Text) :
    (formats.parse (name ++ ".json".toList) content).toOption =
      (formats.json content).toOption := by
  have hjson : Text.endsWith ".json".toList (name ++ ".json".toList) = true := by
    rw [Text.endsWith, Text.before?_append]
    rfl
  rw [Config.Formats.parse, if_pos hjson]
  cases formats.json content <;> rfl

theorem Config.toOption_parse (hconfig : Config.record.ReadBy values {} formats.json)
    (name : Text) (obj : Object) :
    (formats.parse (name ++ ".json".toList) obj.text).toOption =
      if (given Options.record.names obj.members).Nodup then
        Config.record.assign values {} obj.members
      else none := by
  rw [Config.toOption_parse_json, hconfig obj, Json.Record.visit_blank_eq, Config.names_record]

theorem Options.parse_eq_ok_iff (hoptions : Options.record.ReadBy values {} options)
    {o : Options} :
    options obj.text = .ok o ↔
      (given Options.record.names obj.members).Nodup ∧
        Options.record.assign values {} obj.members = some o := by
  rw [← Json.toOption_eq_some_iff, Options.toOption_parse hoptions]
  simp

theorem Config.parse_eq_ok_iff (hconfig : Config.record.ReadBy values {} formats.json)
    {c : Config} :
    formats.parse (name ++ ".json".toList) obj.text = .ok c ↔
      (given Options.record.names obj.members).Nodup ∧
        Config.record.assign values {} obj.members = some c := by
  rw [← Json.toOption_eq_some_iff, Config.toOption_parse hconfig]
  simp

/-- A record is read alike without the members that it does not know. -/
theorem Json.Record.toOption_onlyKnown {σ : Type} {r : Json.Record σ} {blank : σ}
    {parse : Text → Except Json.Complaint σ} (hread : r.ReadBy values blank parse)
    (obj : Object) : (parse (obj.onlyKnown r.names).text).toOption = (parse obj.text).toOption := by
  rw [hread, hread]
  exact r.visit_filter_known values [] blank obj.members

section Lawful

variable (hvalues : values.Lawful)
include hvalues

theorem Config.toOptions_assign_blank
    (hnodup : (given Options.record.names obj.members).Nodup) :
    (Config.record.assign values {} obj.members).map Config.toOptions =
      Options.record.assign values {} (obj.withoutNulls Options.record.names).members :=
  Config.toOptions_assign hvalues obj.values (Json.fresh_nil_iff.mpr hnodup)
    (Config.unsetOutside_blank [])

theorem Config.defaultsOutside_parse (hconfig : Config.record.ReadBy values {} formats.json)
    {c : Config} (h : formats.parse (name ++ ".json".toList) obj.text = .ok c) :
    c.toOptions.DefaultsOutside (given Options.record.names obj.members) := by
  have hunset := Config.unsetOutside_assign hvalues obj.values (Config.unsetOutside_blank [])
    ((Config.parse_eq_ok_iff hconfig).mp h).2
  rw [List.append_nil] at hunset
  exact hunset.toOptions

variable (hoptions : Options.record.ReadBy values {} options)
  (hconfig : Config.record.ReadBy values {} formats.json)
include hoptions hconfig

theorem Options.exists_parse_of_parse {o : Options} (h : options obj.text = .ok o) :
    ∃ c, formats.parse (name ++ ".json".toList) obj.text = .ok c ∧ c.toOptions = o := by
  obtain ⟨hnodup, hassign⟩ := (Options.parse_eq_ok_iff hoptions).mp h
  have hmembers : (obj.withoutNulls Options.record.names).members = obj.members := by
    refine List.filter_eq_self.mpr fun m hm => ?_
    rw [Options.isNullOf_eq_false hvalues obj.values hassign m hm]
    rfl
  have hfilled := Config.toOptions_assign_blank hvalues hnodup
  rw [hmembers, hassign, Option.map_eq_some_iff] at hfilled
  obtain ⟨c, hc, rfl⟩ := hfilled
  exact ⟨c, (Config.parse_eq_ok_iff hconfig).mpr ⟨hnodup, hc⟩, rfl⟩

theorem Options.parse_withoutNulls_iff {o : Options}
    (hnodup : (given Options.record.names obj.members).Nodup) :
    (∃ c, formats.parse (name ++ ".json".toList) obj.text = .ok c ∧ c.toOptions = o) ↔
      options (obj.withoutNulls Options.record.names).text = .ok o := by
  have hrest : (given Options.record.names
      (obj.withoutNulls Options.record.names).members).Nodup :=
    hnodup.sublist (Json.given_filter_sublist _ _ _)
  rw [Options.parse_eq_ok_iff hoptions, and_iff_right hrest,
    ← Config.toOptions_assign_blank hvalues hnodup, Option.map_eq_some_iff]
  exact exists_congr fun c =>
    and_congr_left' ((Config.parse_eq_ok_iff hconfig).trans (and_iff_right hnodup))

end Lawful

end Readers

/-- The two readers of options agree on every object, whatever library goes
through its members. What is read at once is read as a configuration too, and
filling that in gives the same options. If no known field is repeated, the
filled-in configuration is what is read at once without the known fields that
are null. Either way, fields that are missing have their defaults, fields that
are not known may be left out, and repeated fields are refused. -/
theorem options_read_alike {values : Values} {options : Text → Except Json.Complaint Options}
    {formats : Config.Formats} (hvalues : values.Lawful)
    (hoptions : Options.record.ReadBy values {} options)
    (hconfig : Config.record.ReadBy values {} formats.json) (obj : Object) (name : Text) :
    let path := name ++ ".json".toList
    let names := Options.record.names
    let fields := given names obj.members
    (∀ o, options obj.text = .ok o →
      ∃ c, formats.parse path obj.text = .ok c ∧ c.toOptions = o) ∧
    (fields.Nodup → ∀ o,
      (∃ c, formats.parse path obj.text = .ok c ∧ c.toOptions = o) ↔
        options (obj.withoutNulls names).text = .ok o) ∧
    (∀ o, options obj.text = .ok o → o.DefaultsOutside fields) ∧
    (∀ c, formats.parse path obj.text = .ok c → c.toOptions.DefaultsOutside fields) ∧
    (options (obj.onlyKnown names).text).toOption = (options obj.text).toOption ∧
    (formats.parse path (obj.onlyKnown names).text).toOption =
      (formats.parse path obj.text).toOption ∧
    (¬fields.Nodup → (∃ e, options obj.text = .error e) ∧
      ∃ e, formats.parse path obj.text = .error e) := by
  intro path names fields
  have hmissing : ∀ c, formats.parse path obj.text = .ok c → c.toOptions.DefaultsOutside fields :=
    fun c => Config.defaultsOutside_parse hvalues hconfig
  have hsame : ∀ o, options obj.text = .ok o →
      ∃ c, formats.parse path obj.text = .ok c ∧ c.toOptions = o :=
    fun o => Options.exists_parse_of_parse hvalues hoptions hconfig
  refine ⟨hsame, fun hnodup o => Options.parse_withoutNulls_iff hvalues hoptions hconfig hnodup,
    ?_, hmissing, Json.Record.toOption_onlyKnown hoptions obj, ?_, ?_⟩
  · intro o h
    obtain ⟨c, hc, rfl⟩ := hsame o h
    exact hmissing c hc
  · rw [Config.toOption_parse_json, Config.toOption_parse_json]
    exact Json.Record.toOption_onlyKnown hconfig obj
  · intro hrepeated
    rw [← Json.toOption_eq_none_iff, ← Json.toOption_eq_none_iff,
      Options.toOption_parse hoptions, Config.toOption_parse hconfig, if_neg hrepeated,
      if_neg hrepeated]
    exact ⟨rfl, rfl⟩

def mixedMembers : List Member := [
  ⟨⟨[' '], Json.null, []⟩, [], "compress".toList, []⟩,
  ⟨⟨[' '], "\"src\"".toList, []⟩, "\n".toList, "base".toList, [' ']⟩,
  ⟨⟨[], "[true]".toList, [' ']⟩, [' '], "other".toList, []⟩]

/-- An object with a null, a text, and a list for a field that is not known. -/
def mixedObject : Object where
  lead := []
  gap := []
  members := mixedMembers
  trail := "\n".toList
  spaced := by decide
  membersSpaced := by decide
  keys m hm := by
    have hplain : ∀ m ∈ mixedMembers, ∀ c ∈ m.key, Json.IsPlain c := by
      simp [mixedMembers, Json.IsPlain]
    exact (Json.spells_of_plain (hplain m hm)).isBody
  values := by
    have hnull : Json.IsValue Json.null := .word List.mem_cons_self
    have hbody : Json.IsBody "src".toList := (Json.spells_of_plain (by simp [Json.IsPlain])).isBody
    have hlist : Json.IsValue "[true]".toList := by
      let item : Json.Item := ⟨[], "true".toList, []⟩
      have hitem : Json.IsValue item.value := .word (by decide)
      exact @Json.IsValue.list [] [item] Json.spaces_nil (by decide) (by simpa using hitem)
    have hsrc : Json.IsValue "\"src\"".toList := .text hbody
    simpa [mixedMembers] using ⟨hnull, hsrc, hlist⟩

/-- The null is refused among options, and leaves its option unset in the
configuration. -/
theorem options_read_alike_mixedObject :
    let path := "a.json".toList
    let formats : Config.Formats := ⟨Config.ofJson, Config.ofToml?⟩
    let withoutNulls := (mixedObject.withoutNulls Options.record.names).text
    let o : Options := { base := "src".toList }
    mixedObject.text =
      "\x7b\"compress\": null,\n\"base\" : \"src\", \"other\":[true] \x7d\n".toList ∧
    (Options.ofJson mixedObject.text).toOption = none ∧
    Options.ofJson withoutNulls = .ok o ∧
    (∃ c, formats.parse path mixedObject.text = .ok c ∧ c.toOptions = o) ∧
    o.DefaultsOutside ["compress".toList, "base".toList] := by
  intro path formats withoutNulls o
  have hjson : Config.record.ReadBy Json.ownValues {} formats.json :=
    Config.record.readBy_ownValues {}
  obtain ⟨-, hfilled, -, hmissing, -⟩ :=
    options_read_alike Json.lawful_ownValues (Options.record.readBy_ownValues {}) hjson
      mixedObject "a".toList
  have hread : Options.ofJson withoutNulls = .ok o := by decide +kernel
  obtain ⟨c, hc, hoptions⟩ := (hfilled (by decide +kernel) o).mpr hread
  have hgiven : given Options.record.names mixedObject.members =
      ["compress".toList, "base".toList] := by decide +kernel
  refine ⟨by decide +kernel, by decide +kernel, hread, ⟨c, hc, hoptions⟩, ?_⟩
  rw [← hoptions, ← hgiven]
  exact hmissing c hc

end Inlay
