import FieldTree.Binding
import Mathlib.Tactic.Common

/-!
# What is Bound

The pairs of a table are looked at one after the other. A pair is matched if there is a policy of its name, and
belongs to the first one; all other pairs are passed over. As soon as as many pairs were matched as there are
policies, the next pair puts an end to it, whatever its key is. So an unknown key never has an influence on what
is bound, but behind as many matched pairs as policies it has one on the verdict.

## Architecture

- `Policy.owner?`, `Policy.matched`: the policy of a pair, and the pairs that have one.
- `Policy.Trails`: an unknown key stands behind a given number of matched pairs.
- `Binding.look`, `Binding.ofPairs_spec`: all that a run over the pairs does, by induction on the pairs.
- `Field.bind_table`: **the main statement.**
-/

namespace FieldTree

namespace Policy

variable {policies : List Policy} {pair : Field × Field} {rest : List (Field × Field)}

/-! ## Pairs and their policies -/

/-- The policy that a pair belongs to: the first one of its name. -/
def owner? (policies : List Policy) (pair : Field × Field) : Option Nat :=
  policies.findIdx? (·.name == pair.1.text)

/-- The pairs that have a policy. -/
def matched (policies : List Policy) (pairs : List (Field × Field)) : List (Field × Field) :=
  pairs.filter fun pair => (owner? policies pair).isSome

/-- A pair has the type that its policy asks for, if it has a policy. -/
def Suits (policies : List Policy) (pair : Field × Field) : Prop :=
  ∀ i p, owner? policies pair = some i → policies[i]? = some p → p.accepts pair.2 = true

/-- Behind exactly `n` matched pairs stands one with an unknown key. -/
def Trails (policies : List Policy) (n : Nat) (pairs : List (Field × Field)) : Prop :=
  ∃ front pair behind, pairs = front ++ pair :: behind ∧ owner? policies pair = none ∧
    (matched policies front).length = n

theorem matched_cons_of_none (h : owner? policies pair = none) :
    matched policies (pair :: rest) = matched policies rest :=
  List.filter_cons_of_neg (by rw [h]; exact Bool.false_ne_true)

theorem matched_cons_of_some {i : Nat} (h : owner? policies pair = some i) :
    matched policies (pair :: rest) = pair :: matched policies rest :=
  List.filter_cons_of_pos (by rw [h]; rfl)

theorem suits_of_none (h : owner? policies pair = none) : Suits policies pair := by
  intro i p hi
  rw [h] at hi
  cases hi

/-- Only matched pairs can fail to suit. -/
theorem forall_suits_matched {pairs : List (Field × Field)} :
    (∀ pair ∈ matched policies pairs, Suits policies pair) ↔ ∀ pair ∈ pairs, Suits policies pair := by
  constructor
  · intro hmatched pair hpair
    cases howner : owner? policies pair with
    | none => exact suits_of_none howner
    | some i => exact hmatched pair (List.mem_filter.mpr ⟨hpair, by rw [howner]; rfl⟩)
  · exact fun hsuits pair hpair => hsuits pair (List.mem_filter.mp hpair).1

theorem not_trails_nil {n : Nat} : ¬Trails policies n [] := by
  rintro ⟨front, pair, behind, hsplit, -⟩
  exact List.append_ne_nil_of_right_ne_nil front (List.cons_ne_nil _ _) hsplit.symm

theorem trails_zero (h : owner? policies pair = none) : Trails policies 0 (pair :: rest) :=
  ⟨[], pair, rest, rfl, h, rfl⟩

theorem trails_cons_of_none {n : Nat} (h : owner? policies pair = none) :
    Trails policies (n + 1) (pair :: rest) ↔ Trails policies (n + 1) rest := by
  constructor
  · rintro ⟨front, p, behind, hsplit, hp, hn⟩
    cases front with
    | nil => cases hn
    | cons first front =>
      cases hsplit
      rw [matched_cons_of_none h] at hn
      exact ⟨front, p, behind, rfl, hp, hn⟩
  · rintro ⟨front, p, behind, rfl, hp, hn⟩
    exact ⟨pair :: front, p, behind, rfl, hp, by rw [matched_cons_of_none h, hn]⟩

theorem trails_cons_of_some {n i : Nat} (h : owner? policies pair = some i) :
    Trails policies (n + 1) (pair :: rest) ↔ Trails policies n rest := by
  constructor
  · rintro ⟨front, p, behind, hsplit, hp, hn⟩
    cases front with
    | nil => cases hn
    | cons first front =>
      cases hsplit
      rw [matched_cons_of_some h, List.length_cons] at hn
      exact ⟨front, p, behind, rfl, hp, Nat.succ.inj hn⟩
  · rintro ⟨front, p, behind, rfl, hp, hn⟩
    exact ⟨pair :: front, p, behind, rfl, hp, by rw [matched_cons_of_some h, List.length_cons, hn]⟩

/-! ## Values that were bound before -/

theorem owner?_clear (policies : List Policy) (pair : Field × Field) :
    owner? (policies.map clear) pair = owner? policies pair := List.findIdx?_map

/-- Which pairs are matched depends on names alone. -/
theorem owner?_congr {policies' : List Policy} (h : policies'.map clear = policies.map clear)
    (pair : Field × Field) : owner? policies' pair = owner? policies pair := by
  rw [← owner?_clear policies', h, owner?_clear]

end Policy

/-! ## Runs over pairs -/

namespace Binding

variable {policies : List Policy} {sofar : Binding}

open Policy

/-- What becomes of a binding when a pair is looked at. -/
def look (policies : List Policy) (sofar : Binding) (pair : Field × Field) : Binding :=
  match owner? policies pair with
  | none => sofar
  | some i => sofar.serve i pair.1 pair.2

/-- The policies of a binding are `policies`, but for the values. -/
def Asks (sofar : Binding) (policies : List Policy) : Prop := sofar.policies.map clear = policies.map clear

theorem asks_clear (policies : List Policy) : (⟨true, policies.map clear, []⟩ : Binding).Asks policies := by
  rw [Asks, List.map_map]
  rfl

theorem Asks.length_eq (h : sofar.Asks policies) : sofar.policies.length = policies.length := by
  rw [← List.length_map clear, h, List.length_map]

theorem Asks.any_accepts (h : sofar.Asks policies) (i : Nat) (f : Field) :
    (sofar.policies[i]?).any (·.accepts f) = (policies[i]?).any (·.accepts f) := by
  have hclear : ∀ ps : List Policy, (ps[i]?).any (·.accepts f) = ((ps.map clear)[i]?).any (·.accepts f) := by
    intro ps
    rw [List.getElem?_map, Option.any_map]
    rfl
  rw [hclear, h, ← hclear]

theorem Asks.serve (h : sofar.Asks policies) (i : Nat) (key value : Field) :
    (sofar.serve i key value).Asks policies := by
  unfold Binding.serve
  split
  · rw [Asks, ← h]
    -- a value is all that changes
    apply List.ext_getElem?
    intro j
    rw [List.getElem?_map, List.getElem?_map, List.getElem?_modify]
    cases sofar.policies[j]? with
    | none => rfl
    | some p => by_cases hij : i = j <;> simp only [hij, if_true, if_false] <;> rfl
  · exact h

theorem Asks.look (h : sofar.Asks policies) (pair : Field × Field) : (look policies sofar pair).Asks policies := by
  unfold Binding.look
  split
  · exact h
  · exact h.serve _ _ _

/-! ### The verdict -/

theorem ok_look (h : sofar.Asks policies) (pair : Field × Field) :
    (look policies sofar pair).ok = true ↔ sofar.ok = true ∧ Suits policies pair := by
  unfold Binding.look
  cases howner : owner? policies pair with
  | none => exact ⟨fun hok => ⟨hok, suits_of_none howner⟩, And.left⟩
  | some i =>
    obtain ⟨hi, -, -⟩ := List.findIdx?_eq_some_iff_getElem.mp howner
    -- a pair is asked for by the first policy of its name only
    have hsuits : Suits policies pair ↔ policies[i].accepts pair.2 = true := by
      constructor
      · exact fun hall => hall i _ howner (List.getElem?_eq_getElem hi)
      · intro haccepts j p hj hp
        cases howner.symm.trans hj
        cases (List.getElem?_eq_getElem hi).symm.trans hp
        exact haccepts
    rw [hsuits]
    dsimp only
    rw [Binding.serve, h.any_accepts, List.getElem?_eq_getElem hi, Option.any_some]
    split
    case isTrue haccepts => exact ⟨fun hok => ⟨hok, haccepts⟩, And.left⟩
    case isFalse hrefuses => exact ⟨nofun, fun hboth => absurd hboth.2 hrefuses⟩

theorem ok_foldl (h : sofar.Asks policies) (pairs : List (Field × Field)) :
    (pairs.foldl (look policies) sofar).ok = true ↔ sofar.ok = true ∧ ∀ pair ∈ pairs, Suits policies pair := by
  induction pairs generalizing sofar with
  | nil => exact ⟨fun hok => ⟨hok, nofun⟩, And.left⟩
  | cons pair rest ih => rw [List.foldl_cons, ih (h.look pair), ok_look h, List.forall_mem_cons, and_assoc]

/-! ### The values -/

/-- What policy number `i` has in the end: the value of the last pair that belongs to it and has its type. -/
def latest? (policies : List Policy) (i : Nat) (pairs : List (Field × Field)) : Option Field :=
  ((pairs.filter fun pair =>
    owner? policies pair == some i && (policies[i]?).any (·.accepts pair.2)).getLast?).map (·.2)

theorem latest?_append (i : Nat) (front behind : List (Field × Field)) :
    latest? policies i (front ++ behind) = (latest? policies i behind).or (latest? policies i front) := by
  rw [latest?, List.filter_append, List.getLast?_append, Option.map_or]
  rfl

theorem latest?_singleton (i : Nat) (pair : Field × Field) :
    latest? policies i [pair] =
      if owner? policies pair = some i ∧ (policies[i]?).any (·.accepts pair.2) = true then some pair.2
      else none := by
  unfold latest?
  split
  case isTrue h =>
    rw [List.filter_cons_of_pos (by rw [Bool.and_eq_true, beq_iff_eq]; exact h)]
    rfl
  case isFalse h =>
    rw [List.filter_cons_of_neg (by rw [Bool.and_eq_true, beq_iff_eq]; exact h)]
    rfl

/-- Values stay where no pair is bound. -/
theorem mapIdx_latest?_of_none {pairs : List (Field × Field)} (ps : List Policy)
    (h : ∀ i, latest? policies i pairs = none) :
    (ps.mapIdx fun i p => { p with value := (latest? policies i pairs).or p.value }) = ps := by
  apply List.ext_getElem?
  intro i
  rw [List.getElem?_mapIdx, h i]
  cases ps[i]? <;> rfl

theorem policies_look (h : sofar.Asks policies) (pair : Field × Field) :
    (look policies sofar pair).policies =
      sofar.policies.mapIdx fun i p => { p with value := (latest? policies i [pair]).or p.value } := by
  unfold Binding.look
  -- only the owner of the pair can change, and only if it accepts the value
  cases howner : owner? policies pair with
  | none =>
    symm
    apply mapIdx_latest?_of_none
    intro i
    rw [latest?_singleton, howner]
    exact if_neg nofun
  | some j =>
    dsimp only
    rw [Binding.serve, h.any_accepts]
    split
    case isTrue haccepts =>
      apply List.ext_getElem?
      intro i
      rw [List.getElem?_modify, List.getElem?_mapIdx, latest?_singleton, howner]
      -- of the others, this pair is none of the pairs
      by_cases hij : j = i
      case pos =>
        rw [if_pos ⟨congrArg some hij, hij ▸ haccepts⟩]
        cases sofar.policies[i]? with
        | none => rfl
        | some p => simp only [hij, if_true]; rfl
      case neg =>
        rw [if_neg fun hboth => hij (Option.some.inj hboth.1)]
        cases sofar.policies[i]? with
        | none => rfl
        | some p => simp only [hij, if_false]; rfl
    case isFalse hrefuses =>
      symm
      apply mapIdx_latest?_of_none
      intro i
      rw [latest?_singleton, howner]
      apply if_neg
      rintro ⟨hij, haccepts⟩
      cases hij
      -- so the pair is not the latest one of any policy
      exact hrefuses haccepts

theorem policies_foldl (h : sofar.Asks policies) (pairs : List (Field × Field)) :
    (pairs.foldl (look policies) sofar).policies =
      sofar.policies.mapIdx fun i p => { p with value := (latest? policies i pairs).or p.value } := by
  induction pairs generalizing sofar with
  | nil => exact (mapIdx_latest?_of_none sofar.policies fun _ => rfl).symm
  | cons pair rest ih =>
    have hcons : ∀ i, latest? policies i (pair :: rest) = (latest? policies i rest).or (latest? policies i [pair]) :=
      fun i => latest?_append i [pair] rest
    rw [List.foldl_cons, ih (h.look pair), policies_look h, List.mapIdx_mapIdx]
    congr 1
    funext i p
    rw [hcons, Option.or_assoc]
    rfl

/-! ### The run -/

/-- **All that a run over the pairs does**, where it has room for `room` more matched pairs. It binds these, and
    it fails where one of them does not suit, where there are more, or where an unknown key stands behind them. -/
theorem ofPairs_spec (h : sofar.Asks policies) {matched room : Nat} (hroom : matched + room = policies.length)
    (pairs : List (Field × Field)) :
    (ofPairs matched sofar pairs).policies =
        (((Policy.matched policies pairs).take room).foldl (look policies) sofar).policies ∧
      ((ofPairs matched sofar pairs).ok = true ↔
        (((Policy.matched policies pairs).take room).foldl (look policies) sofar).ok = true ∧
          (Policy.matched policies pairs).length ≤ room ∧ ¬Trails policies room pairs) := by
  -- induction on the pairs; what is left of the room shrinks with each pair that is matched
  induction pairs generalizing sofar matched room with
  | nil =>
    have hnone : ((Policy.matched policies []).take room) = [] := List.take_nil
    rw [hnone]
    exact ⟨rfl, fun hok => ⟨hok, Nat.zero_le _, not_trails_nil⟩, And.left⟩
  | cons pair rest ih =>
    obtain ⟨key, value⟩ := pair
    have howner? : sofar.policies.findIdx? (·.name == key.text) = owner? policies (key, value) :=
      owner?_congr h (key, value)
    rw [ofPairs, h.length_eq, howner?]
    cases room with
    | zero =>
      -- the next pair puts an end to it
      rw [if_pos (by omega), List.take_zero]
      refine ⟨rfl, nofun, ?_⟩
      rintro ⟨-, hlength, htrails⟩
      cases howner : owner? policies (key, value) with
      | none => exact absurd (trails_zero howner) htrails
      | some i =>
        rw [matched_cons_of_some howner] at hlength
        exact absurd hlength (Nat.not_succ_le_zero _)
    | succ room =>
      rw [if_neg (by omega)]
      cases howner : owner? policies (key, value) with
      | none =>
        -- an unknown key is stepped over
        rw [matched_cons_of_none howner, trails_cons_of_none howner]
        exact ih h hroom
      | some i =>
        -- a pair that belongs to a policy is looked at and takes up room
        have hlook : look policies sofar (key, value) = sofar.serve i key value := by rw [look, howner]
        rw [matched_cons_of_some howner, trails_cons_of_some howner, List.take_succ_cons, List.foldl_cons, hlook,
          List.length_cons, Nat.succ_le_succ_iff]
        exact ih (h.serve i key value) (by omega)

end Binding

/-! ## Tables -/

namespace Field

variable {f : Field} {policies : List Policy}

open Policy

/-- A pair that belongs to a policy suits it if the policy accepts it. -/
theorem accepts_of_suits {pair : Field × Field} {i : Nat} {p : Policy} (h : Suits policies pair)
    (hp : policies[i]? = some p) :
    (owner? policies pair == some i && p.accepts pair.2) = (owner? policies pair == some i) := by
  cases howner : owner? policies pair == some i with
  | false => rfl
  | true =>
    rw [h i p (beq_iff_eq.mp howner) hp]
    rfl

/-- Where all pairs suit, those that a policy binds are those that belong to it. -/
theorem filter_matched_of_suits {pairs : List (Field × Field)} {i : Nat} {p : Policy}
    (h : ∀ pair ∈ pairs, Suits policies pair) (hp : policies[i]? = some p) :
    ((matched policies pairs).filter fun pair => owner? policies pair == some i && p.accepts pair.2) =
      pairs.filter (owner? policies · == some i) := by
  rw [matched, List.filter_filter]
  apply List.filter_congr
  intro pair hpair
  rw [accepts_of_suits (h pair hpair) hp]
  cases owner? policies pair with
  | none => rfl
  | some j => exact Bool.and_true _

theorem bind_of_table (htable : f.type = .table) :
    f.bind policies = .ofPairs 0 ⟨true, policies.map clear, []⟩ f.pairs := by
  rw [bind, htable]

theorem ok_bind (htable : f.type = .table) : (f.bind policies).ok = true ↔
    (∀ pair ∈ f.pairs, Suits policies pair) ∧ (matched policies f.pairs).length ≤ policies.length ∧
      ¬Trails policies policies.length f.pairs := by
  obtain ⟨-, hok⟩ := Binding.ofPairs_spec (Binding.asks_clear policies) (Nat.zero_add _) f.pairs
  rw [bind_of_table htable, hok, Binding.ok_foldl (Binding.asks_clear policies)]
  -- where there are no more matched pairs than policies, they are all looked at
  constructor
  · rintro ⟨⟨-, hlooked⟩, hlength, htrails⟩
    rw [List.take_of_length_le hlength] at hlooked
    exact ⟨forall_suits_matched.mp hlooked, hlength, htrails⟩
  · rintro ⟨hsuits, hlength, htrails⟩
    rw [List.take_of_length_le hlength]
    exact ⟨⟨rfl, forall_suits_matched.mpr hsuits⟩, hlength, htrails⟩

theorem policies_bind (htable : f.type = .table) : (f.bind policies).policies = policies.mapIdx fun i p =>
    { p with value := ((((matched policies f.pairs).take policies.length).filter fun pair =>
      owner? policies pair == some i && p.accepts pair.2).getLast?).map (·.2) } := by
  obtain ⟨hpolicies, -⟩ := Binding.ofPairs_spec (Binding.asks_clear policies) (Nat.zero_add _) f.pairs
  rw [bind_of_table htable, hpolicies, Binding.policies_foldl (Binding.asks_clear policies)]
  apply List.ext_getElem?
  intro i
  rw [List.getElem?_mapIdx, List.getElem?_mapIdx, List.getElem?_map, Option.map_map]
  cases hp : policies[i]? with
  | none => rfl
  | some p =>
    simp only [Option.map_some, Function.comp_apply, Binding.latest?, hp, Option.any_some, clear, Option.or_none]

/-! ## Main statement -/

/-- **How the values of a table are bound.** Binding succeeds exactly where every matched pair suits its policy,
    there are no more matched pairs than policies, and no unknown key stands behind as many matched pairs as there
    are policies. Each policy then has the value of the last pair that belongs to it, whatever it had before. In
    any case, policies have the last value that suits them of the first matched pairs, as many as there are
    policies, and unknown keys have no influence on that. -/
theorem bind_table (htable : f.type = .table) (policies : List Policy) :
    ((f.bind policies).ok = true ↔
        (∀ pair ∈ f.pairs, Suits policies pair) ∧ (matched policies f.pairs).length ≤ policies.length ∧
          ¬Trails policies policies.length f.pairs) ∧
      ((f.bind policies).ok = true → (f.bind policies).policies = policies.mapIdx fun i p =>
        { p with value := ((f.pairs.filter (owner? policies · == some i)).getLast?).map (·.2) }) ∧
      ((f.bind policies).policies = policies.mapIdx fun i p =>
        { p with value := ((((matched policies f.pairs).take policies.length).filter fun pair =>
          owner? policies pair == some i && p.accepts pair.2).getLast?).map (·.2) }) ∧
      ∀ g : Field, g.type = .table → matched policies g.pairs = matched policies f.pairs →
        (g.bind policies).policies = (f.bind policies).policies ∧
          (¬Trails policies policies.length f.pairs → ¬Trails policies policies.length g.pairs →
            (g.bind policies).ok = (f.bind policies).ok) := by
  refine ⟨ok_bind htable, ?_, policies_bind htable, ?_⟩
  · -- all pairs suit and there is room for all of them, so what is cut off and filtered out is nothing
    intro hok
    obtain ⟨hsuits, hlength, -⟩ := (ok_bind htable).mp hok
    rw [policies_bind htable, List.take_of_length_le hlength]
    apply List.ext_getElem?
    intro i
    rw [List.getElem?_mapIdx, List.getElem?_mapIdx]
    cases hp : policies[i]? with
    | none => rfl
    | some p =>
      rw [Option.map_some, Option.map_some, filter_matched_of_suits hsuits hp]
  · -- both statements above speak of the matched pairs only, but for the unknown keys behind them
    intro g hg hmatched
    refine ⟨?_, ?_⟩
    · rw [policies_bind hg, policies_bind htable, hmatched]
    · intro hf hg'
      -- that all pairs suit is said of the matched ones, so it carries over
      rw [Bool.eq_iff_iff, ok_bind hg, ok_bind htable, ← forall_suits_matched, hmatched, forall_suits_matched]
      exact ⟨fun h => ⟨h.1, h.2.1, hf⟩, fun h => ⟨h.1, h.2.1, hg'⟩⟩

/-- A table of numbers under names of one letter. -/
def sampleNumbers (pairs : List (UInt8 × UInt8)) : Field :=
  let body := pairs.flatMap fun pair => [2, 0, 0, 6, pair.1, 0, 0, 0, 3, 0, 0, 5, pair.2, 0, 0, 0]
  ⟨.new .table (headerSize + body.length), body⟩

/-- One of the numbers. -/
def sampleNumber (n : UInt8) : Field := ⟨.new .int8 5, [n, 0, 0, 0]⟩

/-- The name of one policy stands twice in the table, that of the other one not at all, and both have values. -/
theorem bind_table_sampleNumbers :
    (sampleNumbers [(0x61, 1), (0x7a, 2), (0x61, 3)]).type = .table ∧
      ((sampleNumbers [(0x61, 1), (0x7a, 2), (0x61, 3)]).bind
        [⟨"a", some .int8, some (sampleNumber 9)⟩, ⟨"b", none, some (sampleNumber 9)⟩]).ok = true ∧
      ((sampleNumbers [(0x61, 1), (0x7a, 2), (0x61, 3)]).bind
        [⟨"a", some .int8, some (sampleNumber 9)⟩, ⟨"b", none, some (sampleNumber 9)⟩]).policies =
          [⟨"a", some .int8, some (sampleNumber 3)⟩, ⟨"b", none, none⟩] := by
  obtain ⟨-, hvalues, -⟩ := bind_table
    (show (sampleNumbers [(0x61, 1), (0x7a, 2), (0x61, 3)]).type = .table by decide)
    [⟨"a", some .int8, some (sampleNumber 9)⟩, ⟨"b", none, some (sampleNumber 9)⟩]
  refine ⟨by decide, by decide +kernel, ?_⟩
  rw [hvalues (by decide +kernel)]
  decide +kernel

/-- An unknown key behind the only matched pair makes binding fail. In front of it, it does not. -/
theorem bind_sampleTrailing :
    (sampleNumbers [(0x61, 1), (0x62, 2)]).type = .table ∧
      (∀ pair ∈ (sampleNumbers [(0x61, 1), (0x62, 2)]).pairs, Policy.Suits [⟨"a", none, none⟩] pair) ∧
      (Policy.matched [⟨"a", none, none⟩] (sampleNumbers [(0x61, 1), (0x62, 2)]).pairs).length ≤ 1 ∧
      ((sampleNumbers [(0x61, 1), (0x62, 2)]).bind [⟨"a", none, none⟩]).ok = false ∧
      ((sampleNumbers [(0x62, 2), (0x61, 1)]).bind [⟨"a", none, none⟩]).ok = true := by
  refine ⟨by decide, ?_, by decide +kernel, by decide +kernel, by decide +kernel⟩
  intro pair _ i p _ hp
  obtain rfl := List.mem_singleton.mp (List.mem_of_getElem? hp)
  rfl

end Field

end FieldTree
