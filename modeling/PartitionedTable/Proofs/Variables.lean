import PartitionedTable.Proofs.Numerals
import PartitionedTable.Settings

/-!
What variables must hold for settings to be read from them, and what is read. A truth value has one
spelling; a number may have a plus sign and any number of leading zeros and fits as long as its value
is one of sixty-four bits, however long its text. Each variable is judged by itself, the first one
that does not fit is named, and no other variable is looked at.
-/

namespace PartitionedTable

namespace Settings

/-- The variables in the order of the settings. -/
def declared : List String :=
  [logLevelVariable, tablePathVariable, inBucketVariable, bucketVariable, assumeVariable,
    parallelismVariable]

/-- A truth value has one spelling. -/
def SpellsTruth (text : String) (value : Bool) : Prop := text = if value then "true" else "false"

/-- A number of sixty-four bits is spelled in decimal. -/
def SpellsWord (text : String) (value : Nat) : Prop := Text.Spells text value ∧ value ≤ 2 ^ 64 - 1

/-- What a variable may be set to. Those of the settings that are texts may be set to any text. -/
def Fits (variableName text : String) : Prop :=
  if variableName = inBucketVariable ∨ variableName = assumeVariable then
    ∃ value, SpellsTruth text value
  else if variableName = parallelismVariable then ∃ value, SpellsWord text value
  else True

section

variable (environment : Variables)

/-- A variable is set to what does not fit it. -/
def Offends (variableName : String) : Prop :=
  ∃ text, environment.lookup variableName = some text ∧ ¬ Fits variableName text

/-- The first variable, in the order of the settings, that is set to what does not fit it. -/
def FirstOffending (variableName : String) : Prop :=
  ∃ before after, declared = before ++ variableName :: after ∧ Offends environment variableName
    ∧ ∀ earlier ∈ before, ¬ Offends environment earlier

/-- A setting is what its variable spells, or its default if the variable is not set. -/
def Given {α : Type} (variableName : String) (spells : String → α → Prop) (standard value : α) :
    Prop :=
  match environment.lookup variableName with
  | none => value = standard
  | some text => spells text value

/-- The settings are what the variables spell. -/
structure Describes (settings : Settings) : Prop where
  logLevel : Given environment logLevelVariable Eq "info" settings.logLevel
  tablePath : Given environment tablePathVariable Eq "./data/table" settings.tablePath
  inBucket : Given environment inBucketVariable SpellsTruth false settings.inBucket
  bucket : settings.bucket = environment.lookup bucketVariable
  assumeDatePartitioning :
    Given environment assumeVariable SpellsTruth false settings.assumeDatePartitioning
  parallelism : Given environment parallelismVariable SpellsWord 1500 settings.parallelism

end

variable {environment : Variables} {variableName : String}

theorem truth?_eq_some_iff {text : String} {value : Bool} :
    truth? text = some value ↔ SpellsTruth text value := by
  unfold truth? SpellsTruth
  cases value with
  | true => by_cases yes : text = "true" <;> by_cases no : text = "false" <;> simp_all
  | false => by_cases yes : text = "true" <;> by_cases no : text = "false" <;> simp_all

theorem read_eq_ok_iff {α : Type} {parse : String → Option α} {spells : String → α → Prop}
    (parses : ∀ text value, parse text = some value ↔ spells text value) {standard value : α} :
    read environment variableName parse standard = .ok value
      ↔ Given environment variableName spells standard value := by
  unfold read Given
  cases environment.lookup variableName with
  | none => simp [eq_comm]
  | some text =>
      simp only [← parses]
      cases parse text <;> simp

/-- A variable is read exactly if it does not offend, and otherwise it is named. -/
theorem read_cases (environment : Variables) {α : Type} {parse : String → Option α}
    (fits : ∀ text, Fits variableName text ↔ ∃ value, parse text = some value) (standard : α) :
    (Offends environment variableName
        ∧ read environment variableName parse standard = .error (.unreadable variableName))
      ∨ (¬ Offends environment variableName
        ∧ ∃ value, read environment variableName parse standard = .ok value) := by
  unfold read Offends
  cases environment.lookup variableName with
  | none => simp
  | some text =>
      cases parsed : parse text with
      | none => simp [fits, parsed]
      | some value => simp [fits, parsed]

theorem fits_inBucket (text : String) :
    Fits inBucketVariable text ↔ ∃ value, truth? text = some value := by
  simp [Fits, truth?_eq_some_iff]

theorem fits_assume (text : String) :
    Fits assumeVariable text ↔ ∃ value, truth? text = some value := by
  simp [Fits, truth?_eq_some_iff]

theorem fits_parallelism (text : String) :
    Fits parallelismVariable text ↔ ∃ value, Text.word? text = some value := by
  have apart : parallelismVariable ≠ inBucketVariable ∧ parallelismVariable ≠ assumeVariable := by
    decide
  simp [Fits, apart, Text.word?_eq_some_iff, SpellsWord]

/-- The settings that are texts are never misspelled. -/
theorem not_offends_of_text
    (other : variableName ∉ [inBucketVariable, assumeVariable, parallelismVariable]) :
    ¬ Offends environment variableName := by
  rintro ⟨text, -, misfit⟩
  simp only [List.mem_cons, List.not_mem_nil, or_false, not_or] at other
  exact misfit (by simp [Fits, other])

theorem FirstOffending.unique {variableName' : String}
    (first : FirstOffending environment variableName)
    (first' : FirstOffending environment variableName') : variableName = variableName' := by
  classical
  have found : ∀ {name}, FirstOffending environment name →
      declared.find? (fun name => decide (Offends environment name)) = some name := by
    rintro name ⟨before, after, cut, offends, earlier⟩
    rw [List.find?_eq_some_iff_append]
    exact ⟨decide_eq_true offends, before, after, cut, by simpa using earlier⟩
  exact Option.some.inj ((found first).symm.trans (found first'))

/-- The settings in terms of the three variables that can be misspelled. -/
theorem ofVariables_eq (environment : Variables) :
    ofVariables environment
      = (read environment inBucketVariable truth? false).bind fun inBucket =>
        (read environment assumeVariable truth? false).bind fun assumeDatePartitioning =>
        (read environment parallelismVariable Text.word? 1500).bind fun parallelism => .ok {
          logLevel := (environment.lookup logLevelVariable).getD "info"
          tablePath := (environment.lookup tablePathVariable).getD "./data/table"
          inBucket
          bucket := environment.lookup bucketVariable
          assumeDatePartitioning
          parallelism } := rfl

/-- Either some variable offends and the first one is named, or none does and the settings are read. -/
theorem ofVariables_cases (environment : Variables) :
    (∃ variableName, FirstOffending environment variableName
        ∧ ofVariables environment = .error (.unreadable variableName))
      ∨ ((∀ variableName ∈ declared, ¬ Offends environment variableName)
        ∧ ∃ settings, ofVariables environment = .ok settings) := by
  have logLevel : ¬ Offends environment logLevelVariable := not_offends_of_text (by decide)
  have tablePath : ¬ Offends environment tablePathVariable := not_offends_of_text (by decide)
  have bucket : ¬ Offends environment bucketVariable := not_offends_of_text (by decide)
  rcases read_cases environment fits_inBucket false with ⟨offends, failed⟩ | ⟨inBucket, _, first⟩
  · refine .inl ⟨_, ⟨[logLevelVariable, tablePathVariable], _, rfl, offends, ?_⟩, ?_⟩
    · simp [logLevel, tablePath]
    · rw [ofVariables_eq, failed]
      rfl
  rcases read_cases environment fits_assume false with ⟨offends, failed⟩ | ⟨assume, _, second⟩
  · refine .inl ⟨_, ⟨[logLevelVariable, tablePathVariable, inBucketVariable, bucketVariable], _, rfl,
      offends, ?_⟩, ?_⟩
    · simp [logLevel, tablePath, inBucket, bucket]
    · rw [ofVariables_eq, first, failed]
      rfl
  rcases read_cases environment fits_parallelism 1500 with
    ⟨offends, failed⟩ | ⟨parallelism, _, third⟩
  · refine .inl ⟨_, ⟨[logLevelVariable, tablePathVariable, inBucketVariable, bucketVariable,
      assumeVariable], _, rfl, offends, ?_⟩, ?_⟩
    · simp [logLevel, tablePath, inBucket, bucket, assume]
    · rw [ofVariables_eq, first, failed, second]
      rfl
  · refine .inr ⟨?_, ?_⟩
    · simp [declared, logLevel, tablePath, inBucket, bucket, assume, parallelism]
    · rw [ofVariables_eq, first, second, third]
      exact ⟨_, rfl⟩

theorem read_truth_iff {standard value : Bool} :
    read environment variableName truth? standard = .ok value
      ↔ Given environment variableName SpellsTruth standard value :=
  read_eq_ok_iff fun _ _ => truth?_eq_some_iff

theorem read_word_iff {standard value : Nat} :
    read environment variableName Text.word? standard = .ok value
      ↔ Given environment variableName SpellsWord standard value :=
  read_eq_ok_iff fun _ _ => Text.word?_eq_some_iff

theorem given_text_iff {standard value : String} :
    Given environment variableName Eq standard value
      ↔ value = (environment.lookup variableName).getD standard := by
  unfold Given
  cases environment.lookup variableName <;> simp [eq_comm]

theorem bind_eq_ok_iff {ε α β : Type} {first : Except ε α} {next : α → Except ε β} {value : β} :
    first.bind next = .ok value ↔ ∃ between, first = .ok between ∧ next between = .ok value := by
  cases first <;> simp [Except.bind]

/-- The settings that are read are those that the variables spell. -/
theorem ofVariables_eq_ok_iff {settings : Settings} :
    ofVariables environment = .ok settings ↔ Describes environment settings := by
  simp only [ofVariables_eq, bind_eq_ok_iff, read_truth_iff, read_word_iff, Except.ok.injEq]
  constructor
  · rintro ⟨_, inBucket, _, assume, _, parallelism, rfl⟩
    exact ⟨given_text_iff.mpr rfl, given_text_iff.mpr rfl, inBucket, rfl, assume, parallelism⟩
  · rintro ⟨logLevel, tablePath, inBucket, bucket, assume, parallelism⟩
    refine ⟨_, inBucket, _, assume, _, parallelism, ?_⟩
    rw [← given_text_iff.mp logLevel, ← given_text_iff.mp tablePath, ← bucket]

theorem ofVariables_succeeds_iff :
    (∃ settings, ofVariables environment = .ok settings)
      ↔ ∀ variableName ∈ declared, ¬ Offends environment variableName := by
  constructor
  · rintro ⟨settings, read⟩
    rcases ofVariables_cases environment with ⟨_, _, failed⟩ | ⟨fit, _⟩
    · rw [failed] at read
      cases read
    · exact fit
  · intro fit
    rcases ofVariables_cases environment with ⟨other, ⟨_, _, cut, offends, _⟩, _⟩ | ⟨_, read⟩
    · exact absurd offends (fit other (by simp [cut]))
    · exact read

theorem ofVariables_eq_error_iff :
    ofVariables environment = .error (.unreadable variableName)
      ↔ FirstOffending environment variableName := by
  rcases ofVariables_cases environment with ⟨other, first, failed⟩ | ⟨fit, settings, read⟩
  · rw [failed]
    constructor
    · intro same
      cases same
      exact first
    · intro first'
      rw [first.unique first']
  · rw [read]
    constructor
    · intro same
      cases same
    · rintro ⟨before, after, cut, offends, -⟩
      exact absurd offends (fit variableName (by simp [cut]))

theorem spellsWord_toString_iff {value value' : Nat} (small : value ≤ 2 ^ 64 - 1) :
    SpellsWord (toString value) value' ↔ value' = value := by
  constructor
  · rintro ⟨spells, -⟩
    exact spells.unique (Text.spells_toString value)
  · rintro rfl
    exact ⟨Text.spells_toString value', small⟩

/-- A number of sixty-four bits, written in decimal, is read back. -/
theorem parallelism_read_back {value : Nat} (small : value ≤ 2 ^ 64 - 1)
    (set : environment.lookup parallelismVariable = some (toString value)) :
    ¬ Offends environment parallelismVariable
      ∧ ∀ settings, ofVariables environment = .ok settings → settings.parallelism = value := by
  constructor
  · rintro ⟨text, held, misfit⟩
    obtain rfl := Option.some.inj (set.symm.trans held)
    have spelled := (spellsWord_toString_iff small).mpr rfl
    exact misfit ((fits_parallelism _).mpr ⟨value, Text.word?_eq_some_iff.mpr spelled⟩)
  · intro settings read
    have given := (ofVariables_eq_ok_iff.mp read).parallelism
    unfold Given at given
    rw [set] at given
    exact (spellsWord_toString_iff small).mp given

/-- Only the variables of the settings are looked at. -/
theorem ofVariables_congr {environment' : Variables} (same : ∀ variableName ∈ declared,
    environment'.lookup variableName = environment.lookup variableName) :
    ofVariables environment' = ofVariables environment := by
  simp only [declared, List.forall_mem_cons] at same
  obtain ⟨logLevel, tablePath, inBucket, bucket, assume, parallelism, -⟩ := same
  simp only [ofVariables_eq, read, logLevel, tablePath, inBucket, bucket, assume, parallelism]

/-- What is read from variables. Reading succeeds exactly if no variable of a setting is set to what does
not fit it, and gives the settings that the variables spell; otherwise it names the first variable that
does not fit, in the order of the settings. So every number of sixty-four bits, written in decimal, is
read back, and variables of other names do not matter. -/
theorem ofVariables_exact (environment : Variables) :
    ((∃ settings, ofVariables environment = .ok settings)
        ↔ ∀ variableName ∈ declared, ¬ Offends environment variableName)
      ∧ (∀ settings, ofVariables environment = .ok settings ↔ Describes environment settings)
      ∧ (∀ variableName, ofVariables environment = .error (.unreadable variableName)
        ↔ FirstOffending environment variableName)
      ∧ (∀ value ≤ 2 ^ 64 - 1, environment.lookup parallelismVariable = some (toString value) →
        ¬ Offends environment parallelismVariable
          ∧ ∀ settings, ofVariables environment = .ok settings → settings.parallelism = value)
      ∧ ∀ environment' : Variables,
        (∀ variableName ∈ declared,
            environment'.lookup variableName = environment.lookup variableName) →
          ofVariables environment' = ofVariables environment := by
  refine ⟨ofVariables_succeeds_iff, fun settings => ofVariables_eq_ok_iff,
    fun variableName => ofVariables_eq_error_iff, ?_, ?_⟩
  · intro value small set
    exact parallelism_read_back small set
  · intro environment' same
    exact ofVariables_congr same

end Settings

end PartitionedTable
