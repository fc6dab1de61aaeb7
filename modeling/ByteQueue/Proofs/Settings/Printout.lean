import ByteQueue.Settings.Named

/-! Settings that are printed and read back. Every name and value in a printout is a word that no
argument can be mistaken for, and every value text is read as the value it was printed for. So any
of the printed options, in any order and either spelling, change the settings that they name, and
no others. -/
namespace ByteQueue

namespace CommandLine

/-- Arguments without NUL are received as they were given. -/
theorem received_eq_self {arguments : List String}
    (h : ∀ argument ∈ arguments, '\x00' ∉ argument.toList) : received arguments = arguments := by
  have hSame : ∀ argument ∈ arguments,
      String.ofList (Text.terminated argument.toList) = id argument := by
    intro argument hArgument
    rw [Text.terminated_eq_self_iff.mpr (h argument hArgument), String.ofList_toList, id]
  rw [received, List.map_congr_left hSame, List.map_id]

theorem nul_notMem_arguments {option : SpelledOption} (hName : '\x00' ∉ option.name.toList)
    (hValue : '\x00' ∉ option.value.toList) {argument : String} (h : argument ∈ option.arguments) :
    '\x00' ∉ argument.toList := by
  rw [SpelledOption.arguments] at h
  cases hSpelling : option.spelling with
  | joined => simp_all
  | apart =>
    simp only [hSpelling, List.mem_cons, List.not_mem_nil, or_false] at h
    rcases h with rfl | rfl
    · simp [hName]
    · exact hValue

theorem repeated?_eq_none {given : List (String × String)} (h : (given.map Prod.fst).Nodup) :
    repeated? given = none := by
  induction given with
  | nil => rfl
  | cons option rest ih =>
    rw [List.map_cons, List.nodup_cons] at h
    have hOnce : rest.any (·.1 == option.1) = false := by
      rw [List.any_eq_false]
      intro other hOther hSame
      exact h.1 (beq_iff_eq.mp hSame ▸ List.mem_map_of_mem hOther)
    simp [repeated?, hOnce, ih h.2]

/-- Options of declared names, each given once, are all understood if their values are. -/
theorem parse_spelled {σ : Type} (reader : ArgumentReader) {entries : List (OptionEntry σ)}
    {given : List SpelledOption} {changes : List (String × (σ → σ))} (start : σ)
    (distinct : (entries.map (·.name)).Nodup)
    (known : ∀ option ∈ given, ⟨option.name, true⟩ ∈ entries.map OptionEntry.toOptionDeclaration)
    (plain : ∀ option ∈ given, Plain option.name ∧ Plain option.value)
    (noNul : ∀ option ∈ given, '\x00' ∉ option.name.toList ∧ '\x00' ∉ option.value.toList)
    (once : (given.map SpelledOption.name).Nodup)
    (hChanges : (given.map SpelledOption.pair).mapM (change entries) = .ok changes) :
    parse reader entries start (given.flatMap SpelledOption.arguments) =
      .ok (settle entries changes start) := by
  have hReceived : received (given.flatMap SpelledOption.arguments) =
      given.flatMap SpelledOption.arguments := by
    refine received_eq_self fun argument hArgument => ?_
    obtain ⟨option, hOption, hArgument⟩ := List.mem_flatMap.mp hArgument
    exact nul_notMem_arguments (noNul option hOption).1 (noNul option hOption).2 hArgument
  have hDistinct : ((entries.map OptionEntry.toOptionDeclaration).map
      OptionDeclaration.name).Nodup := by
    rwa [List.map_map]
  have hOnce : repeated? (given.map SpelledOption.pair) = none := by
    refine repeated?_eq_none ?_
    rwa [List.map_map]
  rw [parse, hReceived, reader.read_spelled given hDistinct known plain]
  simp only [bind, Except.bind, hOnce, hChanges]
  rfl

end CommandLine

namespace Setting

theorem name_eq (setting : Setting) :
    setting.name = match setting with
      | .rule => "growth-rule"
      | .initialChunkSize => "initial-chunk-size"
      | .maxChunkSize => "max-chunk-size"
      | .smallHandleThreshold => "small-handle-threshold"
      | .maxSlices => "max-vectored-slices" := by
  cases setting <;> rfl

theorem name_injective {first second : Setting} (h : first.name = second.name) :
    first = second := by
  rw [name_eq, name_eq] at h
  cases first <;> cases second <;> simp_all

theorem name_inj {first second : Setting} : first.name = second.name ↔ first = second :=
  ⟨name_injective, congrArg name⟩

theorem nodup_map_name_all : (all.map name).Nodup := by
  have hAll : all.Nodup := by simp [all]
  exact List.Pairwise.map _ (fun _ _ hOther hSame => hOther (name_injective hSame)) hAll

theorem plain_name (setting : Setting) :
    CommandLine.Plain setting.name ∧ '\x00' ∉ setting.name.toList := by
  rw [name_eq]
  cases setting <;> simp [CommandLine.Plain]

theorem toList_toString (size : UInt64) : (toString size).toList = Text.decimal size.toNat :=
  Nat.toList_repr

/-- A listed rule or a size is printed as letters or digits, and there is at least one. -/
theorem isAlphanum_text {settings : Settings} (h : settings.rule ≠ .unlisted) (setting : Setting) :
    (setting.text (setting.get settings)).toList ≠ [] ∧
      ∀ c ∈ (setting.text (setting.get settings)).toList, c.isAlphanum = true := by
  have hSize (size : UInt64) : (toString size).toList ≠ [] ∧
      ∀ c ∈ (toString size).toList, c.isAlphanum = true := by
    have hNumeral := Text.isNumeral_decimal size.toNat
    rw [toList_toString]
    refine ⟨hNumeral.ne_nil, fun c hc => ?_⟩
    simp [Char.isAlphanum, hNumeral.isDigit c hc]
  cases setting with
  | rule =>
    cases hRule : settings.rule with
    | unlisted => exact absurd hRule h
    | fixed | doubling => simp [text, get, hRule, Rule.name]
  | initialChunkSize | maxChunkSize | smallHandleThreshold | maxSlices => exact hSize _

theorem plain_text {settings : Settings} (h : settings.rule ≠ .unlisted) (setting : Setting) :
    CommandLine.Plain (setting.text (setting.get settings)) ∧
      '\x00' ∉ (setting.text (setting.get settings)).toList := by
  obtain ⟨hSome, hAll⟩ := isAlphanum_text h setting
  obtain ⟨first, rest, hText⟩ := List.exists_cons_of_ne_nil hSome
  -- The characters that mean something in an argument are neither letters nor digits.
  have hNot {c : Char} (hOther : c.isAlphanum = false) :
      c ∉ (setting.text (setting.get settings)).toList := by
    intro hc
    rw [hAll c hc] at hOther
    cases hOther
  have hHyphen : '-' ∉ (setting.text (setting.get settings)).toList := hNot rfl
  have hFirst : first ≠ '-' := by
    rintro rfl
    exact hHyphen (hText ▸ List.mem_cons_self)
  refine ⟨⟨?_, hNot rfl⟩, hNot rfl⟩
  simp [hText, hFirst]

/-- What is printed for a value reads as that value. -/
theorem value?_text (numbers : NumberReader .word64) {settings : Settings}
    (h : settings.rule ≠ .unlisted) (setting : Setting) :
    setting.value? numbers (setting.text (setting.get settings)) = some (setting.get settings) := by
  have hSize (size : UInt64) : size? numbers (toString size) = some size := by
    have hToken : ∀ c ∈ (toString size).toList, Token.isTokenChar c = true := by
      intro c hc
      rw [toList_toString] at hc
      exact Token.isTokenChar_of_isDigit (Text.isDigit_of_mem_decimal hc)
    have hNumber : numbers.read? (toString size).toList = some size.toBitVec := by
      rw [numbers.read?_eq_some_iff hToken]
      exact ⟨size.toNat, toList_toString size ▸ Text.isNumeral_decimal size.toNat, rfl⟩
    rw [size?, hNumber]
    rfl
  cases setting with
  | rule =>
    rw [value?, text, get]
    cases hRule : settings.rule with
    | unlisted => exact absurd hRule h
    | fixed => rfl
    | doubling => rfl
  | initialChunkSize | maxChunkSize | smallHandleThreshold | maxSlices => exact hSize _

/-- Makes several settings what the values say. -/
theorem get_foldl_set (value : (setting : Setting) → setting.Value) (changed : List Setting)
    (start : Settings) (setting : Setting) :
    setting.get (changed.foldl (fun settings other => other.set settings (value other)) start) =
      if setting ∈ changed then value setting else setting.get start := by
  -- What is set first may be set again later, so the claim is for every start.
  induction changed generalizing start with
  | nil => simp
  | cons first rest ih =>
    rw [List.foldl_cons, ih]
    by_cases hRest : setting ∈ rest
    · simp [hRest]
    · by_cases hFirst : setting = first
      · subst hFirst
        simp [hRest, get_set_self]
      · simp [hRest, hFirst, get_set_of_ne hFirst]

/-- What is noted by name for several settings is found there for each of them. -/
theorem lookup_name {γ : Type} (note : Setting → γ) (noted : List Setting) (setting : Setting) :
    (noted.map fun other => (other.name, note other)).lookup setting.name =
      if setting ∈ noted then some (note setting) else none := by
  induction noted with
  | nil => simp
  | cons first rest ih =>
    rw [List.map_cons, List.lookup_cons, ih]
    by_cases hFirst : setting = first
    · simp [hFirst]
    · have hName : (setting.name == first.name) = false := by
        simpa using fun h => hFirst (name_injective h)
      simp [hName, hFirst]

end Setting

namespace Settings

variable (reader : ArgumentReader) (numbers : NumberReader .word64) (settings : Settings)

theorem mem_print_iff {settings : Settings} {option : String × String} :
    option ∈ settings.print ↔
      ∃ setting : Setting, (setting.name, setting.text (setting.get settings)) = option := by
  simp [print, entries, Setting.entry, Setting.mem_all]

theorem find?_entries (setting : Setting) :
    (settings.entries numbers false).find? (·.name == setting.name) =
      some (setting.entry numbers settings false) := by
  have hAll : Setting.all.find? (·.name == setting.name) = some setting := by
    cases setting <;> rfl
  rw [entries, List.find?_map]
  exact congrArg (Option.map _) hAll

/-- A setting as it is printed, spelled as an option of a command line. -/
def spelled (printed : Settings) (choice : Setting × Spelling) : SpelledOption :=
  ⟨choice.1.name, choice.1.text (choice.1.get printed), choice.2⟩

/-- The changes that make some settings what they are in `printed`. -/
def changes (printed : Settings) (changed : List Setting) : List (String × (Settings → Settings)) :=
  changed.map fun setting => (setting.name, fun state => setting.set state (setting.get printed))

/-- Options that are taken from a printout are those of some settings. -/
theorem exists_spelled {printed : Settings} {given : List SpelledOption}
    (h : ∀ option ∈ given, option.pair ∈ printed.print) :
    ∃ chosen : List (Setting × Spelling), given = chosen.map printed.spelled := by
  induction given with
  | nil => exact ⟨[], rfl⟩
  | cons option rest ih =>
    obtain ⟨hOption, hRest⟩ := List.forall_mem_cons.mp h
    obtain ⟨chosen, rfl⟩ := ih hRest
    obtain ⟨setting, hPair⟩ := mem_print_iff.mp hOption
    refine ⟨(setting, option.spelling) :: chosen, ?_⟩
    obtain ⟨name, value, spelling⟩ := option
    cases hPair
    rfl

variable {printed : Settings} (listed : printed.rule ≠ .unlisted)

include listed in
theorem change_spelled (choice : Setting × Spelling) :
    CommandLine.change (settings.entries numbers false) (printed.spelled choice).pair =
      .ok (choice.1.name, fun state => choice.1.set state (choice.1.get printed)) := by
  have hValue := Setting.value?_text numbers listed choice.1
  rw [CommandLine.change]
  simp only [spelled, SpelledOption.pair, find?_entries, Setting.entry, hValue, Option.map_some]
  rfl

include listed in
theorem mapM_change_spelled (chosen : List (Setting × Spelling)) :
    ((chosen.map printed.spelled).map SpelledOption.pair).mapM
        (CommandLine.change (settings.entries numbers false)) =
      .ok (printed.changes (chosen.map Prod.fst)) := by
  induction chosen with
  | nil => rfl
  | cons choice rest ih =>
    simp only [List.map_cons, List.mapM_cons, change_spelled numbers settings listed choice, ih]
    rfl

/-- Every setting is what its change says, if there is one, and else what it was. -/
theorem get_settle (changed : List Setting) (setting : Setting) :
    setting.get (CommandLine.settle (settings.entries numbers false) (printed.changes changed)
        settings) =
      if setting ∈ changed then setting.get printed else setting.get settings := by
  have hStep (state : Settings) (other : Setting) :
      ((printed.changes changed).lookup (other.entry numbers settings false).name).getD
          (other.entry numbers settings false).restore state =
        other.set state (if other ∈ changed then other.get printed else other.get settings) := by
    simp only [changes, Setting.entry, Setting.lookup_name]
    by_cases hOther : other ∈ changed <;> simp [hOther]
  rw [CommandLine.settle, entries, List.foldl_map]
  simp only [hStep, Setting.get_foldl_set, Setting.mem_all, if_true]

theorem map_name_entries :
    (settings.entries numbers false).map (·.name) = Setting.all.map Setting.name :=
  List.map_map

theorem map_fst_print (settings : Settings) :
    settings.print.map Prod.fst = Setting.all.map Setting.name := by
  simp only [print, entries, List.map_map]
  rfl

include listed in
theorem parseBy_spelled (chosen : List (Setting × Spelling))
    (once : ((chosen.map printed.spelled).map SpelledOption.name).Nodup) :
    settings.parseBy reader numbers ((chosen.map printed.spelled).flatMap SpelledOption.arguments) =
      .ok (CommandLine.settle (settings.entries numbers false)
        (printed.changes (chosen.map Prod.fst)) settings) := by
  have hDistinct : ((settings.entries numbers false).map (·.name)).Nodup := by
    rw [map_name_entries]
    exact Setting.nodup_map_name_all
  refine CommandLine.parse_spelled reader settings hDistinct ?_ ?_ ?_ once
    (mapM_change_spelled numbers settings listed chosen)
  all_goals
    intro option hOption
    obtain ⟨choice, -, rfl⟩ := List.mem_map.mp hOption
  · have hEntry : choice.1.entry numbers settings false ∈ settings.entries numbers false :=
      List.mem_map_of_mem (Setting.mem_all choice.1)
    exact List.mem_map_of_mem hEntry
  · exact ⟨(Setting.plain_name choice.1).1, (Setting.plain_text listed choice.1).1⟩
  · exact ⟨(Setting.plain_name choice.1).2, (Setting.plain_text listed choice.1).2⟩

section

variable {given : List SpelledOption} (taken : ∀ option ∈ given, option.pair ∈ printed.print)
  (once : (given.map SpelledOption.name).Nodup)

include listed taken once in
theorem exists_parseBy_eq_ok :
    ∃ result, settings.parseBy reader numbers (given.flatMap SpelledOption.arguments) =
        .ok result ∧
      ∀ setting : Setting, setting.get result =
        if setting.name ∈ given.map SpelledOption.name then setting.get printed
        else setting.get settings := by
  obtain ⟨chosen, rfl⟩ := exists_spelled taken
  refine ⟨_, parseBy_spelled reader numbers settings listed chosen once, fun setting => ?_⟩
  have hNamed : setting.name ∈ (chosen.map printed.spelled).map SpelledOption.name ↔
      setting ∈ chosen.map Prod.fst := by
    simp [spelled, Setting.name_inj]
  rw [get_settle]
  simp only [hNamed]

end

/-- Options taken from a printout, each once and in any order, change exactly the settings that they
name, to what was printed. All of them make the printed settings of any others, and none of them
leave all as it is. -/
theorem printout_reads_back (reader : ArgumentReader) (numbers : NumberReader .word64)
    (settings : Settings) :
    (∀ printed : Settings, printed.rule ≠ .unlisted →
      (∀ given : List SpelledOption, (∀ option ∈ given, option.pair ∈ printed.print) →
        (given.map SpelledOption.name).Nodup →
        ∃ result, settings.parseBy reader numbers (given.flatMap SpelledOption.arguments) =
            .ok result ∧
          ∀ setting : Setting, setting.get result =
            if setting.name ∈ given.map SpelledOption.name then setting.get printed
            else setting.get settings) ∧
      ∀ given : List SpelledOption, (given.map SpelledOption.pair).Perm printed.print →
        settings.parseBy reader numbers (given.flatMap SpelledOption.arguments) = .ok printed) ∧
    settings.parseBy reader numbers [] = .ok settings := by
  refine ⟨fun printed listed => ⟨fun given taken once => ?_, fun given hAll => ?_⟩, ?_⟩
  · exact exists_parseBy_eq_ok reader numbers settings listed taken once
  · have taken : ∀ option ∈ given, option.pair ∈ printed.print := fun option hOption =>
      hAll.mem_iff.mp (List.mem_map_of_mem hOption)
    have hNames : (given.map SpelledOption.name).Perm (Setting.all.map Setting.name) := by
      have hFirst := hAll.map Prod.fst
      rwa [List.map_map, map_fst_print] at hFirst
    obtain ⟨result, hResult, hGet⟩ := exists_parseBy_eq_ok reader numbers settings listed taken
      (hNames.nodup_iff.mpr Setting.nodup_map_name_all)
    have hPrinted : result = printed := by
      refine Setting.eq_of_get fun setting => ?_
      rw [hGet, if_pos (hNames.mem_iff.mpr (List.mem_map_of_mem (Setting.mem_all setting)))]
    rw [hResult, hPrinted]
  · -- Nothing is taken, so it can be from any printout.
    have listed : ({} : Settings).rule ≠ .unlisted := nofun
    have hParsed := parseBy_spelled reader numbers settings listed [] List.nodup_nil
    have hUnchanged : CommandLine.settle (settings.entries numbers false)
        (({} : Settings).changes []) settings = settings :=
      Setting.eq_of_get fun setting => by simp [get_settle]
    exact hParsed.trans (congrArg Except.ok hUnchanged)

/-- Two options of a printout, out of order and in both spellings, over settings that cannot be
printed themselves. -/
theorem printout_reads_back_over_unlisted :
    parse { rule := .unlisted, initialChunkSize := 5 }
        ["--max-vectored-slices=3", "--growth-rule", "doubling"] =
      .ok { rule := .doubling, initialChunkSize := 5, maxSlices := 3 } := by
  let printed : Settings := { rule := .doubling, maxChunkSize := 9, maxSlices := 3 }
  let given : List SpelledOption :=
    [⟨"max-vectored-slices", "3", .joined⟩, ⟨"growth-rule", "doubling", .apart⟩]
  have hReads := printout_reads_back .standard (.decimal .word64)
    { rule := .unlisted, initialChunkSize := 5 }
  have taken : ∀ option ∈ given, option.pair ∈ printed.print := by decide
  obtain ⟨result, hResult, hGet⟩ := (hReads.1 printed nofun).1 given taken (by decide)
  refine (hResult : parse _ _ = _).trans (congrArg Except.ok (Setting.eq_of_get fun setting => ?_))
  rw [hGet]
  cases setting <;> rfl

end Settings

end ByteQueue
