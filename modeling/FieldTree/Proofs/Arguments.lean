import FieldTree.Command.Arguments
import Mathlib.Data.List.TakeWhile

/-!
# Asking for Anything

There is a command line for every action on named files and for every size of at most 64 bits. File names and
signatures may look like options there, because they come behind `--`.

## Architecture

- `Arguments.readSize_repr`: a size reads back from its decimal digits.
- `Arguments.takeOption_valued`: an option with its value in one argument.
- `Action.words`, `Arguments.read_words`: a command line for an action, and that it is read as such.
-/

namespace FieldTree.Command

/-- An option without a value. -/
def flag (name : String) : String := "--" ++ name

/-- An option with its value in the same argument. -/
def valued (name value : String) : String := "--" ++ name ++ "=" ++ value

/-- An action as the arguments of a command line, from its name on. -/
def Action.words : Action → List String
  | encode input output force =>
    "encode" :: (output.map (valued "output")).toList ++ (if force then [flag "force"] else []) ++ ["--", input]
  | decode input pretty => "decode" :: (if pretty then [flag "pretty"] else []) ++ ["--", input]
  | dump input => ["dump", "--", input]
  | validate input signature => ["validate", "--", input, signature]

/-- The files of an action have names. -/
def Action.Named : Action → Prop
  | encode input output _ => input ≠ "" ∧ output ≠ some ""
  | decode input _ | dump input | validate input _ => input ≠ ""

namespace Arguments

/-! ## Sizes -/

/-- **A size reads back** from its decimal digits. -/
theorem readSize_repr {n : Nat} (hn : n < 2 ^ 64) : readSize n.repr = some n := by
  have hdigits : ∀ c ∈ Nat.toDigits 10 n, c.isDigit = true := fun c hc =>
    Nat.isDigit_of_mem_toDigits (by decide) (by decide) hc
  have hvalue : Nat.ofDigitChars 10 (Nat.toDigits 10 n) 0 = n := Nat.ofDigitChars_toDigits (by decide) (by decide)
  have hplus : ∀ rest, Nat.toDigits 10 n = '+' :: rest → False := by
    intro rest hrest
    have hdigit := hdigits '+' (hrest ▸ List.mem_cons_self)
    cases hdigit
  have hnil : Nat.toDigits 10 n ≠ [] := Nat.toDigits_ne_nil
  rw [readSize, Nat.toList_repr]
  generalize Nat.toDigits 10 n = ds at *
  dsimp only
  split
  · next rest => exact absurd rfl (hplus rest)
  · rw [if_pos ⟨hnil, List.all_eq_true.mpr hdigits⟩, hvalue, if_pos hn]

/-! ## Options -/

theorem toList_valued (name value : String) :
    (valued name value).toList = '-' :: '-' :: (name.toList ++ '=' :: value.toList) := by
  simp [valued, String.toList_append]

theorem toList_flag (name : String) : (flag name).toList = '-' :: '-' :: name.toList := by
  simp [flag, String.toList_append]

/-- Long options are told apart from `--`. -/
theorem isOption_of_toList {argument : String} {rest : List Char} (h : argument.toList = '-' :: '-' :: rest)
    (hrest : rest ≠ []) : isOption argument = true ∧ argument ≠ "--" := by
  constructor
  · rw [isOption, h]
    rfl
  · rintro rfl
    cases h
    exact hrest rfl

theorem takeOption_flag {level level' : Level} {name : String} (hname : '=' ∉ name.toList)
    (hlong : level.long name = .flag (.ok level')) : level.takeOption (flag name) = .taken level' := by
  have hall : ∀ c ∈ name.toList, (c != '=') = true := fun c hc => bne_iff_ne.mpr fun h => hname (h ▸ hc)
  have hfront : name.toList.takeWhile (· != '=') = name.toList := List.takeWhile_eq_self_iff.mpr hall
  have hbehind : name.toList.dropWhile (· != '=') = [] := List.dropWhile_eq_nil_iff.mpr hall
  rw [Level.takeOption, toList_flag]
  change level.named name.toList = _
  rw [Level.named, hfront, hbehind, String.ofList_toList, hlong]

/-- **An option with its value in one argument** takes that value, whatever it is. -/
theorem takeOption_valued {level : Level} {name : String} {option : Valued} (hname : '=' ∉ name.toList)
    (hlong : level.long name = .valued option) (value : String) :
    level.takeOption (valued name value) = level.withValue option (some value) := by
  have hall : ∀ c ∈ name.toList, (c != '=') = true := fun c hc => bne_iff_ne.mpr fun h => hname (h ▸ hc)
  have hfront : (name.toList ++ '=' :: value.toList).takeWhile (· != '=') = name.toList := by
    rw [List.takeWhile_append_of_pos hall, List.takeWhile_cons_of_neg (by decide), List.append_nil]
  have hbehind : (name.toList ++ '=' :: value.toList).dropWhile (· != '=') = '=' :: value.toList := by
    rw [List.dropWhile_append_of_pos hall, List.dropWhile_cons_of_neg (by decide)]
  rw [Level.takeOption, toList_valued]
  change level.named (name.toList ++ '=' :: value.toList) = _
  rw [Level.named, hfront, hbehind, String.ofList_toList, hlong]
  dsimp only
  rw [String.ofList_toList]

/-! ## Command lines -/

theorem settle_of_none {level : Level} (h : level.pending = none) : level.settle = .ok level := by
  rw [Level.settle, h]

/-- In front of the subcommand, a size is taken. -/
theorem readOuter_size {n : Nat} (hn : n < 2 ^ 64) (rest : List String) :
    readOuter { subcommand := none } (valued "max-size" n.repr :: rest) =
      readOuter { subcommand := none, maxSize := some n } rest := by
  have hoption := isOption_of_toList (toList_valued "max-size" n.repr) (List.append_ne_nil_of_right_ne_nil _ nofun)
  have htake : Level.takeOption { subcommand := none } (valued "max-size" n.repr) =
      .taken { subcommand := none, maxSize := some n } := by
    rw [takeOption_valued (by decide) rfl, Level.withValue, Level.take, readSize_repr hn]
  rw [readOuter, hoption.1]
  simp only [Level.settle, htake, Bool.not_true, Bool.false_eq_true, if_false]

theorem readOuter_subcommand (level : Level) (s : Subcommand) (rest : List String) :
    readOuter level (s.name :: rest) = readInner level s false { subcommand := s } rest := by
  have hplain : isOption s.name = false := by cases s <;> decide +kernel
  have hname : Subcommand.ofName? s.name = some s := by cases s <;> decide +kernel
  rw [readOuter, hplain, hname]
  rfl

section

variable {outer level level' : Level} {s : Subcommand}

/-- Behind the subcommand, an option is taken. -/
theorem readInner_option {argument : String} (hpending : level.pending = none)
    (hoption : isOption argument = true ∧ argument ≠ "--") (htake : level.takeOption argument = .taken level')
    (rest : List String) :
    readInner outer s false level (argument :: rest) = readInner outer s false level' rest := by
  rw [readInner]
  simp only [hoption.1, hoption.2, settle_of_none hpending, htake, Bool.false_eq_true, Bool.not_true, Bool.not_false,
    false_and, or_self, if_false]

theorem readInner_output {output : Option String} (hnamed : output ≠ some "") (rest : List String) :
    readInner outer .encode false { subcommand := some .encode } ((output.map (valued "output")).toList ++ rest) =
      readInner outer .encode false { subcommand := some .encode, output } rest := by
  cases output with
  | none => rfl
  | some path =>
    have hpath : path ≠ "" := fun h => hnamed (h ▸ rfl)
    have hoption := isOption_of_toList (toList_valued "output" path) (List.append_ne_nil_of_right_ne_nil _ nofun)
    have htake : Level.takeOption { subcommand := some .encode } (valued "output" path) =
        .taken { subcommand := some .encode, output := some path } := by
      rw [takeOption_valued (by decide) rfl, Level.withValue, Level.take, if_pos ⟨rfl, hpath⟩]
    exact readInner_option rfl hoption htake rest

/-- A flag is set where it is given, and only there. -/
theorem readInner_flag (level : Bool → Level) {name : String} (hname : '=' ∉ name.toList) (hsome : name.toList ≠ [])
    (hpending : (level false).pending = none) (hlong : (level false).long name = .flag (.ok (level true)))
    (given : Bool) (rest : List String) :
    readInner outer s false (level false) ((if given then [flag name] else []) ++ rest) =
      readInner outer s false (level given) rest := by
  cases given with
  | false => rfl
  | true =>
    exact readInner_option hpending (isOption_of_toList (toList_flag name) hsome) (takeOption_flag hname hlong) rest

/-- Behind `--`, a file name is a plain argument. -/
theorem readInner_input (hpending : level.pending = none) (hplain : level.plain = []) {input : String}
    (hinput : input ≠ "") (rest : List String) :
    readInner outer s false level ("--" :: input :: rest) =
      readInner outer s true { level with plain := [input] } rest := by
  have htake : level.takePlain s input = .ok { level with plain := [input] } := by
    have hcount : plainCount s ≠ 0 := by cases s <;> decide
    rw [Level.takePlain, hplain, if_neg]
    rintro (hfull | ⟨-, hempty⟩)
    · exact hcount hfull.symm
    · exact hinput hempty
  rw [readInner]
  simp only [Bool.not_false, and_self, if_true]
  rw [readInner]
  simp only [Bool.not_true, Bool.false_eq_true, and_false, if_false, settle_of_none hpending, true_or, if_true, htake]

end

/-- **A command line for any action.** -/
theorem read_words {action : Action} (h : action.Named) {n : Nat} (hn : n < 2 ^ 64) :
    read (valued "max-size" n.repr :: action.words) = .ok ⟨action, 0, n⟩ := by
  rw [read, readOuter_size hn]
  -- behind the subcommand, each word is read by its kind: options first, then the input
  cases action with
  | dump input =>
    rw [Action.words, show "dump" = Subcommand.name .dump from rfl, readOuter_subcommand, readInner_input rfl rfl h]
    rfl
  | validate input signature =>
    rw [Action.words, show "validate" = Subcommand.name .validate from rfl, readOuter_subcommand,
      readInner_input rfl rfl h, readInner]
    simp only [Bool.not_true, Bool.false_eq_true, and_false, if_false, true_or, if_true]
    rfl
  | decode input pretty =>
    rw [Action.words, show "decode" = Subcommand.name .decode from rfl, List.cons_append, readOuter_subcommand,
      readInner_flag (fun pretty => { subcommand := some .decode, pretty }) (by decide) (by decide) rfl rfl,
      readInner_input rfl rfl h]
    rfl
  | encode input output force =>
    rw [Action.words, show "encode" = Subcommand.name .encode from rfl, List.cons_append, List.cons_append,
      readOuter_subcommand, List.append_assoc, readInner_output h.2,
      readInner_flag (fun force => { subcommand := some .encode, output, force }) (by decide) (by decide) rfl rfl,
      readInner_input rfl rfl h.1]
    rfl

end Arguments

end FieldTree.Command
