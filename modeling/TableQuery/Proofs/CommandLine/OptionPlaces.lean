import TableQuery.CommandLine.Options
import TableQuery.Proofs.Number.Whole

/-! # Places of options

Options may stand anywhere among the words of a command line, in any order and under either of
their names. What is read depends on the words, in their order, and on the set of the options.
Behind the terminator every argument is a word, also one that starts with a dash.
-/
namespace TableQuery.CommandLine

def IsWord (text : String) : Prop := text.toList.head? ≠ some '-'

def Switch.forms (s : Switch) : List String :=
  ("--" ++ s.name) :: (s.letter?.map fun c => String.ofList ['-', c]).toList

/-- What can be given to an option: a valid value that does not start with a dash, and nothing
where no value is taken. -/
def Switch.Accepts : Switch → Option String → Prop
  | format, some text => IsWord text
  | limit, some text => text ≠ "" ∧ ∀ c ∈ text.toList, c.isDigit = true
  | schema, some text | config, some text => text ≠ "" ∧ IsWord text
  | tables, none | summary, none | log, none | help, none => True
  | _, _ => False

/-- The arguments that give options, with each value right behind the name, and words among them.
Both keep their order. -/
inductive Interleaves : List (Switch × Option String) → List String → List String → Prop
  | nil : Interleaves [] [] []
  | option {s : Switch} {value : Option String} {form : String}
      {given : List (Switch × Option String)} {words arguments : List String}
      (hform : form ∈ s.forms) (h : Interleaves given words arguments) :
      Interleaves ((s, value) :: given) words (form :: (value.toList ++ arguments))
  | word {w : String} {given : List (Switch × Option String)} {words arguments : List String}
      (h : Interleaves given words arguments) : Interleaves given (w :: words) (w :: arguments)

/-- Options that are distinct, each with something that can be given to it. -/
structure OptionSet where
  given : List (Switch × Option String)
  distinct : (given.map Prod.fst).Nodup
  accepted : ∀ g ∈ given, g.1.Accepts g.2

namespace OptionSet

def has (o : OptionSet) (s : Switch) : Bool := o.given.any (·.1 == s)

def value? (o : OptionSet) (s : Switch) : Option String := (o.given.find? (·.1 == s)).bind (·.2)

/-- What these options say about a data file and the words of a query. -/
def options (o : OptionSet) (file : String) (words : List String) : Options where
  dataFile := some file
  query := if " ".intercalate words = "" then none else some (" ".intercalate words)
  format := (o.value? .format).getD "json"
  limit := (o.value? .limit).map fun text =>
    Number.Decimal.toFloat false ⟨Number.digitsValue text.toList, 0⟩
  tables := o.has .tables
  schema := o.value? .schema
  summary := o.has .summary
  config := o.value? .config
  log := o.has .log
  help := o.has .help

end OptionSet

theorem shape_word {w : String} (hw : IsWord w) : shape w = .positional := by
  unfold shape
  split
  case h_5 => rfl
  all_goals next hdash => exact absurd (congrArg List.head? hdash) hw

theorem spread_word {w : String} (hw : IsWord w) : spread w = [w] := by
  unfold spread
  split
  · next hdash => exact absurd (congrArg List.head? hdash) hw
  · rfl

theorem shape_form {s : Switch} {form : String} (h : form ∈ s.forms) :
    shape form = .option (some s) form none := by
  cases s <;> fin_cases h <;> rfl

theorem spread_form {s : Switch} {form : String} (h : form ∈ s.forms) :
    spread form = [form] ∧ form ≠ terminator := by
  cases s <;> fin_cases h <;> decide

theorem spreadAll_cons {argument : String} (hspread : spread argument = [argument])
    (hne : argument ≠ terminator) (rest : List String) :
    spreadAll (argument :: rest) = argument :: spreadAll rest := by
  have hfree : [argument].contains terminator = false := by
    simpa using hne.symm
  rw [spreadAll, hspread, hfree]
  rfl

theorem spreadAll_word {w : String} (hw : IsWord w) (rest : List String) :
    spreadAll (w :: rest) = w :: spreadAll rest := by
  refine spreadAll_cons (spread_word hw) ?_ rest
  rintro rfl
  exact hw rfl

theorem spreadAll_terminator (rest : List String) :
    spreadAll (terminator :: rest) = terminator :: rest := rfl

theorem Switch.Accepts.isWord {s : Switch} {text : String} (h : s.Accepts (some text)) :
    IsWord text := by
  cases s with
  | format => exact h
  | schema | config => exact h.2
  | limit =>
    intro hdash
    have hdigit := h.2 '-' (List.mem_of_mem_head? hdash)
    cases hdigit
  | tables | summary | log | help => exact h.elim

theorem Switch.Accepts.takesValue {s : Switch} {value : Option String} (h : s.Accepts value) :
    s.takesValue = value.isSome := by
  cases s <;> cases value <;> first | rfl | exact h.elim

theorem looksLikeOption_word {w : String} (hw : IsWord w) : looksLikeOption w = false := by
  unfold looksLikeOption
  split
  · next hdash => exact absurd (congrArg List.head? hdash) hw
  · rfl

theorem check_use {s : Switch} {value : Option String} (h : s.Accepts value) (form : String) :
    Use.check ⟨some s, form, value, false⟩ = .ok (s, value) := by
  have htakes := h.takesValue
  cases value with
  | none =>
    unfold Use.check
    dsimp only
    rw [htakes]
    rfl
  | some text =>
    unfold Use.check
    dsimp only
    rw [htakes, looksLikeOption_word h.isWord]
    rfl

theorem tokens_option {s : Switch} {value : Option String} {form : String}
    (hform : form ∈ s.forms) (h : s.Accepts value) (rest : List String) :
    tokens (form :: (value.toList ++ rest)) =
      .option ⟨some s, form, value, false⟩ :: tokens rest := by
  rw [tokens, shape_form hform]
  cases value with
  | none => exact if_neg (Bool.eq_false_iff.mp h.takesValue)
  | some text => exact if_pos h.takesValue

theorem tokens_word {w : String} (hw : IsWord w) (rest : List String) :
    tokens (w :: rest) = .positional w :: tokens rest := by
  rw [tokens, shape_word hw]

theorem ofTokens_positionals (texts : List String) :
    Arguments.ofTokens (texts.map .positional) = .ok ⟨[], texts⟩ := by
  induction texts with
  | nil => rfl
  | cons text texts ih =>
    rw [List.map_cons, Arguments.ofTokens, ih]
    rfl

namespace Interleaves
variable {given : List (Switch × Option String)} {words arguments : List String}

theorem spreadAll_append (h : Interleaves given words arguments)
    (hgiven : ∀ g ∈ given, g.1.Accepts g.2) (hwords : ∀ w ∈ words, IsWord w)
    (rest : List String) : spreadAll (arguments ++ rest) = arguments ++ spreadAll rest := by
  induction h with
  | nil => rfl
  | @option s value form given words arguments hform _ ih =>
    obtain ⟨haccepts, hgiven⟩ := List.forall_mem_cons.mp hgiven
    have hothers := ih hgiven hwords
    obtain ⟨hspread, hne⟩ := spread_form hform
    cases value with
    | none => exact (spreadAll_cons hspread hne _).trans (congrArg _ hothers)
    | some text =>
      have hvalue := (spreadAll_word haccepts.isWord _).trans (congrArg _ hothers)
      exact (spreadAll_cons hspread hne _).trans (congrArg _ hvalue)
  | word _ ih =>
    obtain ⟨hw, hwords⟩ := List.forall_mem_cons.mp hwords
    exact (spreadAll_word hw _).trans (congrArg _ (ih hgiven hwords))

/-- The options and the words of an interleaving come in front of those of what follows it. -/
theorem ofTokens_append (h : Interleaves given words arguments)
    (hgiven : ∀ g ∈ given, g.1.Accepts g.2) (hwords : ∀ w ∈ words, IsWord w)
    {rest : List String} {a : Arguments} (hrest : Arguments.ofTokens (tokens rest) = .ok a) :
    Arguments.ofTokens (tokens (arguments ++ rest)) =
      .ok ⟨given ++ a.options, words ++ a.positionals⟩ := by
  induction h with
  | nil => exact hrest
  | @option s value form given words arguments hform _ ih =>
    obtain ⟨haccepts, hgiven⟩ := List.forall_mem_cons.mp hgiven
    rw [List.cons_append, List.append_assoc, tokens_option hform haccepts, Arguments.ofTokens,
      check_use haccepts, ih hgiven hwords]
    rfl
  | word _ ih =>
    obtain ⟨hw, hwords⟩ := List.forall_mem_cons.mp hwords
    rw [List.cons_append, tokens_word hw, Arguments.ofTokens, ih hgiven hwords]
    rfl

theorem read (h : Interleaves given words arguments) (hgiven : ∀ g ∈ given, g.1.Accepts g.2)
    (hwords : ∀ w ∈ words, IsWord w) : Arguments.read arguments = .ok ⟨given, words⟩ := by
  have hspread := h.spreadAll_append hgiven hwords []
  have hnone : Arguments.ofTokens (tokens []) = .ok ⟨[], []⟩ := rfl
  have htokens := h.ofTokens_append hgiven hwords hnone
  simp only [spreadAll, List.append_nil] at hspread htokens
  rw [Arguments.read, hspread, htokens]

theorem read_terminated (h : Interleaves given words arguments)
    (hgiven : ∀ g ∈ given, g.1.Accepts g.2) (hwords : ∀ w ∈ words, IsWord w)
    (texts : List String) :
    Arguments.read (arguments ++ terminator :: texts) = .ok ⟨given, words ++ texts⟩ := by
  rw [Arguments.read, h.spreadAll_append hgiven hwords, spreadAll_terminator]
  have htexts : Arguments.ofTokens (tokens (terminator :: texts)) = .ok ⟨[], texts⟩ :=
    ofTokens_positionals texts
  rw [h.ofTokens_append hgiven hwords htexts, List.append_nil]

theorem concat (h : Interleaves given words arguments) (w : String) :
    Interleaves given (words ++ [w]) (arguments ++ [w]) := by
  induction h with
  | nil => exact .word .nil
  | option hform _ ih =>
    rw [List.cons_append, List.append_assoc]
    exact .option hform ih
  | word _ ih => exact .word ih

end Interleaves

theorem checkFilled_eq (path : List String) {text : Option String} (h : ∀ t ∈ text, t ≠ "") :
    Options.checkFilled path text = ⟨[], text⟩ := by
  unfold Options.checkFilled
  split
  · exact absurd rfl (h "" rfl)
  · rfl

theorem isInteger_digits {cs : List Char} (hne : cs ≠ []) (h : ∀ c ∈ cs, c.isDigit = true) :
    Options.isInteger cs = true := by
  unfold Options.isInteger
  split
  · cases h '-' List.mem_cons_self
  · simpa [hne] using h

theorem checkLimit_eq {text : Option String} (h : ∀ t ∈ text, Switch.limit.Accepts (some t)) :
    Options.checkLimit text = ⟨[], text.map fun t =>
      Number.Decimal.toFloat false ⟨Number.digitsValue t.toList, 0⟩⟩ := by
  cases text with
  | none => rfl
  | some t =>
    obtain ⟨hfilled, hdigits⟩ := h t rfl
    have hne : t.toList ≠ [] := fun hnil => hfilled (String.toList_eq_nil_iff.mp hnil)
    rw [Options.checkLimit, if_pos (isInteger_digits hne hdigits),
      Number.ofText_digits hfilled hdigits, Option.map_some]

namespace OptionSet
variable {o : OptionSet} {given : List (Switch × Option String)}

theorem isGiven_eq (hgiven : given.Perm o.given) (words : List String) (s : Switch) :
    Arguments.isGiven ⟨given, words⟩ s = o.has s := hgiven.any_eq

/-- That the last one of several options counts makes no difference where they are distinct. -/
theorem value?_eq (hgiven : given.Perm o.given) (words : List String) (s : Switch) :
    Arguments.value? ⟨given, words⟩ s = o.value? s := by
  have hone : Set.Subsingleton {g ∈ o.given | g.1 == s} := by
    rintro g ⟨hg, hs⟩ g' ⟨hg', hs'⟩
    exact List.inj_on_of_nodup_map o.distinct hg hg' ((eq_of_beq hs).trans (eq_of_beq hs').symm)
  have hperm : o.given.Perm given.reverse := hgiven.symm.trans given.reverse_perm.symm
  exact congrArg (Option.bind · Prod.snd) (List.find?_eq_find?_of_perm hperm hone).symm

theorem accepts_value? {s : Switch} {text : String} (h : o.value? s = some text) :
    s.Accepts (some text) := by
  obtain ⟨g, hfound, hvalue⟩ := Option.bind_eq_some_iff.mp h
  have hs : g.1 = s := by simpa using List.find?_some hfound
  have haccepts := o.accepted g (List.mem_of_find?_eq_some hfound)
  rwa [hs, hvalue] at haccepts

theorem check_eq (hgiven : given.Perm o.given) {file : String} (hfile : file ≠ "")
    (words : List String) :
    Options.check ⟨given, file :: words⟩ = ⟨[], o.options file words⟩ := by
  have hdata : Options.checkFilled ["dataFile"] (some file) = ⟨[], some file⟩ :=
    checkFilled_eq _ fun _ htext => Option.some.inj htext ▸ hfile
  have hlimit := checkLimit_eq fun _ (htext : _ ∈ o.value? .limit) => accepts_value? htext
  have hschema : Options.checkFilled ["schema"] (o.value? .schema) = ⟨[], o.value? .schema⟩ :=
    checkFilled_eq _ fun _ htext => (accepts_value? htext).1
  have hconfig : Options.checkFilled ["config"] (o.value? .config) = ⟨[], o.value? .config⟩ :=
    checkFilled_eq _ fun _ htext => (accepts_value? htext).1
  unfold Options.check
  simp only [value?_eq hgiven, isGiven_eq hgiven, List.head?_cons, hdata, hlimit, hschema, hconfig]
  rfl

theorem read_eq (hgiven : given.Perm o.given) {file : String} (hfile : file ≠ "")
    {words arguments : List String} (h : Arguments.read arguments = .ok ⟨given, file :: words⟩) :
    Options.read arguments = .ok (o.options file words) := by
  rw [Options.read, h]
  change (Options.check ⟨given, file :: words⟩).result.mapError BadArguments.invalid = _
  rw [check_eq hgiven hfile]
  rfl

/-- Options are read the same wherever they stand among the words of a command line, in whatever
order and under either name. Arguments behind the terminator are words, even if they start with a
dash. -/
theorem read_anyPlaces (o : OptionSet) (hgiven : given.Perm o.given) {file : String}
    (hfile : file ≠ "") (hword : IsWord file) :
    (∀ words arguments, (∀ w ∈ words, IsWord w) → Interleaves given (file :: words) arguments →
      Options.read arguments = .ok (o.options file words)) ∧
    ∀ texts front, Interleaves given [] front →
      Options.read (front ++ file :: terminator :: texts) = .ok (o.options file texts) := by
  have haccepted : ∀ g ∈ given, g.1.Accepts g.2 := fun g hg => o.accepted g (hgiven.subset hg)
  constructor
  · intro words arguments hwords h
    exact read_eq hgiven hfile (h.read haccepted (List.forall_mem_cons.mpr ⟨hword, hwords⟩))
  · intro texts front h
    have hread :=
      (h.concat file).read_terminated haccepted (List.forall_mem_singleton.mpr hword) texts
    rw [List.append_assoc] at hread
    exact read_eq hgiven hfile hread

/-- A format, a limit and a flag, among the words of a query and in front of what looks like
options. -/
theorem read_anyPlaces_mixed : ∃ o : OptionSet,
    o.given = [(.format, some "csv"), (.limit, some "5"), (.log, none)] ∧
    Options.read ["--log", "data.json", "-f", "csv", "SELECT", "name", "--limit", "5"] =
      .ok (o.options "data.json" ["SELECT", "name"]) ∧
    Options.read (["--log", "--format", "csv", "-l", "5"] ++
        "data.json" :: terminator :: ["-1", "--help"]) =
      .ok (o.options "data.json" ["-1", "--help"]) := by
  have haccepted : ∀ g ∈ [(Switch.format, some "csv"), (.limit, some "5"), (.log, none)],
      g.1.Accepts g.2 := by
    simp [Switch.Accepts, IsWord]
  have hword : IsWord "data.json" := by
    unfold IsWord
    decide
  have hgiven : [(Switch.log, none), (.format, some "csv"), (.limit, some "5")].Perm
      [(.format, some "csv"), (.limit, some "5"), (.log, none)] := by decide
  have hamong : Interleaves [(.log, none), (.format, some "csv"), (.limit, some "5")]
      ["data.json", "SELECT", "name"]
      ["--log", "data.json", "-f", "csv", "SELECT", "name", "--limit", "5"] :=
    .option (by decide) (.word (.option (by decide) (.word (.word (.option (by decide) .nil)))))
  have hfront : Interleaves [(.log, none), (.format, some "csv"), (.limit, some "5")] []
      ["--log", "--format", "csv", "-l", "5"] :=
    .option (by decide) (.option (by decide) (.option (by decide) .nil))
  have hread := read_anyPlaces ⟨_, by decide, haccepted⟩ hgiven (by decide) hword
  exact ⟨⟨_, by decide, haccepted⟩, rfl, hread.1 _ _ (by simp [IsWord]) hamong,
    hread.2 ["-1", "--help"] _ hfront⟩

end OptionSet

end TableQuery.CommandLine
