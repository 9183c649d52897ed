import JavaAnalyzer.Language.Lombok
import JavaAnalyzer.Library.TextPlaces

/-! # Configuration files

`LombokConfig::load_from_directory` of `language/java/lombok/config.rs`: the settings of the files `lombok.config` in a
directory and in the directories above it, up to the first one that stops the search. A directory is the list of its
names from the root on, and its file is the text that can be read, if there is one. -/

namespace JavaAnalyzer.Language.Lombok
set_option autoImplicit false
open Text TextPlaces

namespace LombokConfig

def parseConfigLine (line : List Char) : Option (String × String) :=
  match splitOnce '=' line with
  | some (key, value) => some (String.ofList (trim key), String.ofList (trim value))
  | none =>
    match splitOnce ':' line with
    | some (key, value) => some (String.ofList (trim key), String.ofList (trim value))
    | none => none

/-- One turn of the loop of `merge_from_content`, on a trimmed line. -/
def mergeLine (config : LombokConfig) (line : List Char) : LombokConfig :=
  if line.isEmpty || ['#'].isPrefixOf line || ['/', '/'].isPrefixOf line then config
  else
    match parseConfigLine line with
    | some (key, value) => ⟨config.settings.insert key value⟩
    | none => config

def mergeFromContent (config : LombokConfig) (content : List Char) : LombokConfig :=
  (strLines content).foldl (fun config line => config.mergeLine (trim line)) config

def hasStopDirective (config : LombokConfig) : Bool :=
  ((config.get "config.stopBubbling").map fun v => v == "true").getD false

/-! ## Directories -/

section Directories

variable (file : List String → Option (List Char))

/-- The loop of `load_from_directory` over a directory and those above it. -/
def loadAlong : List (List String) → LombokConfig → LombokConfig
  | [], config => config
  | current :: above, config =>
    let merged :=
      match file current with
      | some content => config.mergeFromContent content
      | none => config
    if merged.hasStopDirective then merged else loadAlong above merged

/-- A directory and those that `pop` leads to. -/
def directoryChain (startPath : List String) : List (List String) :=
  startPath.inits.reverse

def loadFromDirectory (startPath : List String) : LombokConfig :=
  loadAlong file (directoryChain startPath) new

/-- What the file of a directory sets a key to. -/
def setting (directory : List String) (key : String) : Option String :=
  (file directory).bind fun content => (new.mergeFromContent content).get key

def Stops (directory : List String) : Prop :=
  setting file directory "config.stopBubbling" = some "true"

instance (directory : List String) : Decidable (Stops file directory) :=
  decEq _ _

/-- The directories up to the first that stops the search. -/
def upToStop : List (List String) → List (List String)
  | [] => []
  | directory :: above => if Stops file directory then [directory] else directory :: upToStop above

/-- The nearest directory that sets the key sets it to the value. -/
def NearestSets (directories : List (List String)) (key value : String) : Prop :=
  ∃ nearer directory above, directories = nearer ++ directory :: above ∧ setting file directory key = some value ∧
    ∀ other ∈ nearer, setting file other key = none

/-- The farthest directory that sets the key sets it to the value. -/
def FarthestSets (directories : List (List String)) (key value : String) : Prop :=
  ∃ nearer directory above, directories = nearer ++ directory :: above ∧ setting file directory key = some value ∧
    ∀ other ∈ above, setting file other key = none

end Directories

/-! ## What a file adds -/

theorem get_insert (config : LombokConfig) (key value other : String) :
    get ⟨config.settings.insert key value⟩ other = if other = key then some value else config.get other := by
  by_cases h : other = key
  · subst h
    rw [if_pos rfl, get, AList.lookup_insert]
  · rw [if_neg h, get, AList.lookup_insert_ne h, get]

theorem get_new (key : String) : new.get key = none := rfl

theorem get_mergeLine (config : LombokConfig) (line : List Char) (key : String) :
    (config.mergeLine line).get key = ((new.mergeLine line).get key).or (config.get key) := by
  rw [mergeLine, mergeLine]
  split_ifs
  · rfl
  · cases parseConfigLine line with
    | none => rfl
    | some entry =>
      rw [get_insert, get_insert]
      split_ifs <;> rfl

theorem get_mergeLines (lines : List (List Char)) (config : LombokConfig) (key : String) :
    (lines.foldl (fun config line => config.mergeLine (trim line)) config).get key =
      ((lines.foldl (fun config line => config.mergeLine (trim line)) new).get key).or (config.get key) := by
  induction lines generalizing config with
  | nil => rfl
  | cons line lines ih =>
    rw [List.foldl_cons, List.foldl_cons, ih, ih (new.mergeLine (trim line)), get_mergeLine, Option.or_assoc]

/-- The settings of a file come before those read so far. -/
theorem get_mergeFromContent (config : LombokConfig) (content : List Char) (key : String) :
    (config.mergeFromContent content).get key = ((new.mergeFromContent content).get key).or (config.get key) :=
  get_mergeLines _ config key

theorem hasStopDirective_iff (config : LombokConfig) :
    config.hasStopDirective = true ↔ config.get "config.stopBubbling" = some "true" := by
  rw [hasStopDirective]
  cases config.get "config.stopBubbling" <;> simp

/-! ## What the directories add -/

section Directories

variable {file : List String → Option (List Char)}

/-- The configuration with the file of a directory merged in, if it has one. -/
theorem get_merged (config : LombokConfig) (directory : List String) (key : String) :
    (match file directory with
      | some content => config.mergeFromContent content
      | none => config).get key = (setting file directory key).or (config.get key) := by
  rw [setting]
  cases file directory with
  | none => rfl
  | some content => exact get_mergeFromContent config content key

/-- The last directory that sets a key decides on it. On the directories: the search stops behind the same one, since
no directory before it has set the stop. -/
theorem get_loadAlong (directories : List (List String)) (config : LombokConfig)
    (hconfig : config.hasStopDirective = false) (key : String) :
    (loadAlong file directories config).get key =
      ((upToStop file directories).reverse.findSome? fun directory => setting file directory key).or
        (config.get key) := by
  induction directories generalizing config with
  | nil => rfl
  | cons directory above ih =>
    have hmerged := @get_merged file config directory
    rw [loadAlong, upToStop]
    generalize (match file directory with
      | some content => config.mergeFromContent content
      | none => config) = merged at hmerged
    have hstop : merged.hasStopDirective = true ↔ Stops file directory := by
      have hunset : config.get "config.stopBubbling" ≠ some "true" := fun h =>
        Bool.false_ne_true (hconfig.symm.trans ((hasStopDirective_iff config).mpr h))
      rw [hasStopDirective_iff, hmerged, Stops]
      cases setting file directory "config.stopBubbling" with
      | none => exact iff_of_false hunset nofun
      | some value => rfl
    by_cases hstops : Stops file directory
    · rw [if_pos (hstop.mpr hstops), if_pos hstops, hmerged, List.reverse_singleton, List.findSome?_singleton]
    · rw [if_neg (mt hstop.mp hstops), if_neg hstops, ih merged (Bool.eq_false_iff.mpr (mt hstop.mp hstops)), hmerged,
        List.reverse_cons, List.findSome?_append, List.findSome?_singleton, Option.or_assoc]

theorem get_loadFromDirectory (startPath : List String) (key : String) :
    (loadFromDirectory file startPath).get key =
      (upToStop file (directoryChain startPath)).reverse.findSome? fun directory => setting file directory key := by
  rw [loadFromDirectory, get_loadAlong _ _ rfl, get_new, Option.or_none]

theorem nearestSets_iff {directories : List (List String)} {key value : String} :
    NearestSets file directories key value ↔
      directories.findSome? (fun directory => setting file directory key) = some value :=
  List.findSome?_eq_some_iff.symm

theorem farthestSets_iff {directories : List (List String)} {key value : String} :
    FarthestSets file directories key value ↔
      directories.reverse.findSome? (fun directory => setting file directory key) = some value := by
  rw [List.findSome?_eq_some_iff]
  constructor
  · rintro ⟨nearer, directory, above, rfl, hset, hnone⟩
    refine ⟨above.reverse, directory, nearer.reverse, by simp, hset, fun other hother => ?_⟩
    exact hnone other (List.mem_reverse.mp hother)
  · rintro ⟨above, directory, nearer, hreverse, hset, hnone⟩
    refine ⟨nearer.reverse, directory, above.reverse, ?_, hset, fun other hother => ?_⟩
    · rw [List.reverse_eq_iff.mp hreverse]
      simp
    · exact hnone other (List.mem_reverse.mp hother)

theorem exists_farthest {directories : List (List String)} {key value : String}
    (h : NearestSets file directories key value) : ∃ other, FarthestSets file directories key other := by
  simp only [farthestSets_iff, ← Option.isSome_iff_exists, List.findSome?_isSome_iff, List.mem_reverse]
  obtain ⟨nearer, directory, above, rfl, hset, -⟩ := h
  exact ⟨directory, List.mem_append_right _ List.mem_cons_self, by rw [hset]; rfl⟩

theorem exists_nearest {directories : List (List String)} {key value : String}
    (h : FarthestSets file directories key value) : ∃ other, NearestSets file directories key other := by
  simp only [nearestSets_iff, ← Option.isSome_iff_exists, List.findSome?_isSome_iff]
  obtain ⟨nearer, directory, above, rfl, hset, -⟩ := h
  exact ⟨directory, List.mem_append_right _ List.mem_cons_self, by rw [hset]; rfl⟩

end Directories

/-- A key has the value of the nearest directory up to the stop exactly when the farthest directory up to there that
sets it sets the same value. -/
theorem nearest_setting_iff (file : List String → Option (List Char)) (startPath : List String) (key : String) :
    (∀ value, (loadFromDirectory file startPath).get key = some value ↔
        NearestSets file (upToStop file (directoryChain startPath)) key value) ↔
      ∀ near far, NearestSets file (upToStop file (directoryChain startPath)) key near →
        FarthestSets file (upToStop file (directoryChain startPath)) key far → near = far := by
  generalize hdirectories : upToStop file (directoryChain startPath) = directories
  have hget : ∀ value, (loadFromDirectory file startPath).get key = some value ↔
      FarthestSets file directories key value := by
    intro value
    rw [get_loadFromDirectory, hdirectories, farthestSets_iff]
  simp only [hget]
  constructor
  · intro h near far hnear hfar
    have hsame := (h far).mp hfar
    rw [nearestSets_iff] at hnear hsame
    exact Option.some.inj (hnear.symm.trans hsame)
  · intro h value
    constructor
    · intro hfar
      obtain ⟨near, hnear⟩ := exists_nearest hfar
      rwa [h near value hnear hfar] at hnear
    · intro hnear
      obtain ⟨far, hfar⟩ := exists_farthest hnear
      rwa [← h value far hnear hfar] at hfar

/-- The file of `/app/core` says `true` for chained accessors and that of `/app` says `false`. -/
def twoFiles : List String → Option (List Char)
  | ["app", "core"] => some "lombok.accessors.chain = true\n".toList
  | ["app"] => some "config.stopBubbling = true\nlombok.accessors.chain = false\n".toList
  | _ => none

/-- In `/app/core` chained accessors are off. -/
theorem farthest_setting_wins : ¬ ∀ (file : List String → Option (List Char)) (startPath : List String)
    (key value : String), (loadFromDirectory file startPath).get key = some value ↔
      NearestSets file (upToStop file (directoryChain startPath)) key value := by
  intro hall
  have hnear : NearestSets twoFiles (upToStop twoFiles (directoryChain ["app", "core"])) "lombok.accessors.chain" "true" :=
    nearestSets_iff.mpr (by decide +kernel)
  have hget := (hall twoFiles ["app", "core"] "lombok.accessors.chain" "true").mpr hnear
  revert hget
  decide +kernel

end LombokConfig

end JavaAnalyzer.Language.Lombok
