import FieldTree.Proofs.Signature.Grammar

/-!
# Where a Text Is Not a Signature

A text is read by recursion on its brackets, and what is wrong with it comes up somewhere inside. This module says
where. A stack is moved over the text from left to right: opening brackets go on it, closing brackets take the
innermost one off. The first byte that does not go with the stack in front of it is at fault, and if there is none, it
is the innermost bracket that is still open at the end.

## Architecture

- `Stack.before`: the brackets that are open in front of a byte.
- `Stack.Offends`: what can be wrong with a byte, and `FaultAt`, the fault of a text.
- `firstFault?`: the same by one pass over the bytes, with `firstFault?_eq_some_iff`.
- `firstFault?_of_parseFrom_ok`, `firstFault?_of_parseFrom_error`: **reading follows the stack.**
- `parse_eq_error_iff`: the main statement.
-/

namespace FieldTree.Signature

/-! ## The stack -/

/-- Open brackets with their positions, the innermost first. -/
abbrev Stack := List (Bracket × Nat)

namespace Stack

/-- The stack behind a byte. -/
def advance (stack : Stack) (position : Nat) (byte : UInt8) : Stack :=
  match openedBy? byte with
  | some bracket => (bracket, position) :: stack
  | none => if (closedBy? byte).isSome then stack.tail else stack

/-- The stack in front of byte number `position`. -/
def before (bytes : Bytes) : (position : Nat) → Stack
  | 0 => []
  | position + 1 => (bytes[position]?.map ((before bytes position).advance position)).getD []

/-- What is wrong with a byte while these brackets are open. -/
inductive Offends (stack : Stack) : UInt8 → Fault → Prop where
  /-- no bracket is opened while `maxDepth` are open -/
  | tooDeep {bracket : Bracket} :
      maxDepth ≤ stack.length → Offends stack (byteOf bracket.opening) .nestedTooDeep
  /-- only the innermost bracket is closed, and only by its partner -/
  | unpaired {bracket : Bracket} :
      stack.head?.map (·.1) ≠ some bracket → Offends stack (byteOf bracket.closing) (.unexpected bracket)
  /-- all else are the letters of the patterns -/
  | stranger {byte : UInt8} :
      (∀ bracket : Bracket, byte ≠ byteOf bracket.opening) → (∀ bracket : Bracket, byte ≠ byteOf bracket.closing) →
      (∀ kind : Kind, byte ≠ byteOf kind.letter) → Offends stack byte (.unknown byte)

end Stack

/-- Nothing is wrong with byte number `i`. -/
def Sound (bytes : Bytes) (i : Nat) : Prop :=
  ∀ byte, bytes[i]? = some byte → ∀ fault, ¬(Stack.before bytes i).Offends byte fault

/-- The fault of a text, with its position. -/
inductive FaultAt (bytes : Bytes) : Nat → Fault → Prop where
  /-- the first byte that something is wrong with -/
  | byte {position : Nat} {byte : UInt8} {fault : Fault} :
      bytes[position]? = some byte → (Stack.before bytes position).Offends byte fault →
      (∀ i < position, Sound bytes i) → FaultAt bytes position fault
  /-- the innermost bracket that is open at the end, if nothing is wrong with any byte -/
  | ending {bracket : Bracket} {start : Nat} {outer : Stack} :
      (∀ i, Sound bytes i) → Stack.before bytes bytes.length = (bracket, start) :: outer →
      FaultAt bytes start (.unclosed bracket)

/-! ## One pass over the bytes -/

/-- What is wrong with a byte, if anything is. -/
def Stack.offence? (stack : Stack) (byte : UInt8) : Option Fault :=
  match openedBy? byte with
  | some _ => if maxDepth ≤ stack.length then some .nestedTooDeep else none
  | none =>
    match closedBy? byte with
    | some bracket => if stack.head?.map (·.1) = some bracket then none else some (.unexpected bracket)
    | none => if (Kind.ofByte? byte).isSome then none else some (.unknown byte)

/-- The first fault from `position` on, with its position. -/
def firstFault? : Stack → (position : Nat) → Bytes → Option (Nat × Fault)
  | [], _, [] => none
  | (bracket, start) :: _, _, [] => some (start, .unclosed bracket)
  | stack, position, byte :: rest =>
    match stack.offence? byte with
    | some fault => some (position, fault)
    | none => firstFault? (stack.advance position byte) (position + 1) rest

theorem openedBy?_eq_none_iff {byte : UInt8} :
    openedBy? byte = none ↔ ∀ bracket : Bracket, byte ≠ byteOf bracket.opening := by
  simp [Option.eq_none_iff_forall_ne_some, openedBy?_eq_some_iff]

theorem closedBy?_eq_none_iff {byte : UInt8} :
    closedBy? byte = none ↔ ∀ bracket : Bracket, byte ≠ byteOf bracket.closing := by
  simp [Option.eq_none_iff_forall_ne_some, closedBy?_eq_some_iff]

theorem ofByte?_eq_none_iff {byte : UInt8} :
    Kind.ofByte? byte = none ↔ ∀ kind : Kind, byte ≠ byteOf kind.letter := by
  simp [Option.eq_none_iff_forall_ne_some, ofByte?_eq_some_iff]

section Characters

variable (bracket : Bracket) (kind : Kind)

@[simp] theorem openedBy?_opening : openedBy? (byteOf bracket.opening) = some bracket :=
  openedBy?_eq_some_iff.mpr rfl

@[simp] theorem closedBy?_closing : closedBy? (byteOf bracket.closing) = some bracket :=
  closedBy?_eq_some_iff.mpr rfl

@[simp] theorem ofByte?_letter : Kind.ofByte? (byteOf kind.letter) = some kind :=
  ofByte?_eq_some_iff.mpr rfl

@[simp] theorem openedBy?_closing : openedBy? (byteOf bracket.closing) = none := by
  cases bracket <;> rfl

@[simp] theorem openedBy?_letter : openedBy? (byteOf kind.letter) = none := by
  cases kind <;> rfl

@[simp] theorem closedBy?_letter : closedBy? (byteOf kind.letter) = none := by
  cases kind <;> rfl

end Characters

namespace Stack

variable {stack : Stack} {byte : UInt8} {fault : Fault}

theorem offence?_eq_some_iff : stack.offence? byte = some fault ↔ stack.Offends byte fault := by
  constructor
  · -- the three ways to offend are the three branches that give a fault, in the order in which a byte is tried
    intro h
    unfold offence? at h
    split at h
    · next bracket hopened =>
      obtain rfl := openedBy?_eq_some_iff.mp hopened
      obtain ⟨hdeep, hfault⟩ := Option.ite_none_right_eq_some.mp h
      cases hfault
      exact .tooDeep hdeep
    · next hopened =>
      split at h
      · next bracket hclosed =>
        obtain rfl := closedBy?_eq_some_iff.mp hclosed
        obtain ⟨hpartner, hfault⟩ := Option.ite_none_left_eq_some.mp h
        cases hfault
        exact .unpaired hpartner
      · next hclosed =>
        obtain ⟨hkind, hfault⟩ := Option.ite_none_left_eq_some.mp h
        cases hfault
        -- the byte is neither a bracket nor a letter
        have hkind := Option.not_isSome_iff_eq_none.mp hkind
        exact .stranger (openedBy?_eq_none_iff.mp hopened) (closedBy?_eq_none_iff.mp hclosed)
          (ofByte?_eq_none_iff.mp hkind)
  · intro h
    cases h with
    | tooDeep hdeep => simp [offence?, hdeep]
    | unpaired hpartner => simp [offence?, hpartner]
    | stranger hopened hclosed hkind =>
      simp [offence?, openedBy?_eq_none_iff.mpr hopened, closedBy?_eq_none_iff.mpr hclosed,
        ofByte?_eq_none_iff.mpr hkind]

theorem offence?_eq_none_iff : stack.offence? byte = none ↔ ∀ fault, ¬stack.Offends byte fault := by
  simp [Option.eq_none_iff_forall_ne_some, offence?_eq_some_iff]

theorem before_succ {bytes : Bytes} {position : Nat} (h : bytes[position]? = some byte) :
    before bytes (position + 1) = (before bytes position).advance position byte := by
  simp [before, h]

end Stack

section Pass

variable {stack : Stack} {position : Nat} {byte : UInt8} {rest : Bytes}

theorem firstFault?_of_offence {fault : Fault} (h : stack.offence? byte = some fault) :
    firstFault? stack position (byte :: rest) = some (position, fault) := by
  simp [firstFault?, h]

theorem firstFault?_of_sound (h : stack.offence? byte = none) :
    firstFault? stack position (byte :: rest) = firstFault? (stack.advance position byte) (position + 1) rest := by
  simp [firstFault?, h]

end Pass

/-- **One pass finds the fault of a text.** -/
theorem firstFault?_eq_some_iff {bytes : Bytes} {position : Nat} {fault : Fault} :
    firstFault? [] 0 bytes = some (position, fault) ↔ FaultAt bytes position fault := by
  -- induction on the bytes behind byte number `k`, those in front of it being sound
  suffices h : ∀ (rest : Bytes) (k : Nat), bytes.drop k = rest → k ≤ bytes.length → (∀ i < k, Sound bytes i) →
      (firstFault? (Stack.before bytes k) k rest = some (position, fault) ↔ FaultAt bytes position fault) from
    h bytes 0 rfl (Nat.zero_le _) (fun i hi => absurd hi (Nat.not_lt_zero i))
  intro rest
  induction rest with
  | nil =>
    intro k hdrop hk hsound
    obtain rfl : k = bytes.length := Nat.le_antisymm hk (List.drop_eq_nil_iff.mp hdrop)
    have hall : ∀ i, Sound bytes i := by
      intro i byte hbyte
      exact hsound i (List.getElem?_eq_some_iff.mp hbyte).1 byte hbyte
    constructor
    · intro h
      cases hstack : Stack.before bytes bytes.length with
      | nil => simp [hstack, firstFault?] at h
      | cons innermost outer =>
        obtain ⟨bracket, start⟩ := innermost
        simp only [hstack, firstFault?, Option.some.injEq, Prod.mk.injEq] at h
        obtain ⟨rfl, rfl⟩ := h
        exact .ending hall hstack
    · intro h
      cases h with
      | byte hbyte hoffends _ => exact absurd hoffends (hall _ _ hbyte _)
      | ending _ hstack => simp [hstack, firstFault?]
  | cons byte rest ih =>
    intro k hdrop hk hsound
    have hbyte : bytes[k]? = some byte := by
      rw [← List.head?_drop, hdrop, List.head?_cons]
    have hnext : bytes.drop (k + 1) = rest := by
      rw [← List.tail_drop, hdrop, List.tail_cons]
    have hlt : k < bytes.length := (List.getElem?_eq_some_iff.mp hbyte).1
    cases hoffence : (Stack.before bytes k).offence? byte with
    | none =>
      rw [firstFault?_of_sound hoffence, ← Stack.before_succ hbyte]
      apply ih (k + 1) hnext hlt
      intro i hi
      rcases Nat.lt_succ_iff_lt_or_eq.mp hi with hi | rfl
      · exact hsound i hi
      · intro other hother
        rw [hbyte] at hother
        cases hother
        exact Stack.offence?_eq_none_iff.mp hoffence
    | some first =>
      have hfirst := Stack.offence?_eq_some_iff.mp hoffence
      rw [firstFault?_of_offence hoffence, Option.some.injEq, Prod.mk.injEq]
      constructor
      · rintro ⟨rfl, rfl⟩
        exact .byte hbyte hfirst hsound
      · intro h
        cases h with
        | @byte _ other _ hother hoffends hfront =>
          -- of two bytes that something is wrong with, neither is in front of the other
          rcases Nat.lt_trichotomy position k with hlt | rfl | hlt
          · exact absurd hoffends (hsound position hlt other hother fault)
          · rw [hbyte] at hother
            cases hother
            have hfault := Stack.offence?_eq_some_iff.mpr hoffends
            rw [hoffence] at hfault
            exact ⟨rfl, Option.some.inj hfault⟩
          · exact absurd hfirst (hfront k hlt byte hbyte first)
        | ending hall _ => exact absurd hfirst (hall k byte hbyte first)

/-! ## Reading follows the stack -/

section Reading

variable {outer : Option (Bracket × Nat)} {depth position : Nat} {bytes : Bytes}

/-- **What is read leaves the stack without its innermost bracket**, and a pass goes on behind it. At the end of the
    text there is no such bracket. -/
theorem firstFault?_of_parseFrom_ok (stack : Stack) {r : Sequence bytes} (hstack : outer = none → stack = [])
    (hdepth : depth = (outer.toList ++ stack).length) (h : parseFrom outer depth position bytes = .ok r) :
    firstFault? (outer.toList ++ stack) position bytes = firstFault? stack r.stop r.rest := by
  -- induction along the reading; the brackets that are open are the innermost one and those of `stack`
  fun_induction parseFrom outer depth position bytes generalizing stack with
  | case1 depth position =>
    cases h
    rfl
  | case3 outer depth position c rest hclosed =>
    cases h
    obtain ⟨bracket, hc⟩ := Option.isSome_iff_exists.mp hclosed.1
    obtain ⟨⟨_, start⟩, rfl, rfl⟩ := Option.map_eq_some_iff.mp (hclosed.2.symm.trans hc)
    obtain rfl := closedBy?_eq_some_iff.mp hc
    simp [firstFault?, Stack.offence?, Stack.advance]
  | case5 outer depth position c rest _ kind hkind s hs ih =>
    -- a letter leaves the stack alone
    cases h
    obtain rfl := ofByte?_eq_some_iff.mp hkind
    rw [firstFault?_of_sound (by simp [Stack.offence?])]
    simpa [Stack.advance] using ih stack hstack hdepth hs
  | case9 outer depth position c rest _ _ bracket hbracket hopen inner hinner s hs ihinner ihrest =>
    -- a group is read to its closing bracket on the stack with its own bracket, and then what follows it
    cases h
    obtain rfl := openedBy?_eq_some_iff.mp hbracket
    have hin := ihinner (outer.toList ++ stack) (by simp) (by simp [hdepth]) hinner
    rw [firstFault?_of_sound (by simpa [Stack.offence?, hdepth] using hopen)]
    simpa [Stack.advance] using hin.trans (ihrest stack hstack hdepth hs)
  -- the other branches end in an error
  | case2 | case4 | case6 | case7 | case8 | case10 | case11 => cases h

/-- **The fault that is reported is the first one**, however deep in brackets it is met. -/
theorem firstFault?_of_parseFrom_error (stack : Stack) {e : Nat × Fault} (hstack : outer = none → stack = [])
    (hdepth : depth = (outer.toList ++ stack).length) (h : parseFrom outer depth position bytes = .error e) :
    firstFault? (outer.toList ++ stack) position bytes = some e := by
  fun_induction parseFrom outer depth position bytes generalizing stack with
  | case2 depth position bracket start =>
    -- the end of the text, with a bracket open
    cases h
    rfl
  | case4 outer depth position c rest _ kind hkind fault hfault ih =>
    -- what follows a letter
    cases h
    obtain rfl := ofByte?_eq_some_iff.mp hkind
    rw [firstFault?_of_sound (by simp [Stack.offence?])]
    simpa [Stack.advance] using ih stack hstack hdepth hfault
  | case6 outer depth position c rest _ _ bracket hbracket hdeep =>
    -- a bracket that may not be opened
    cases h
    obtain rfl := openedBy?_eq_some_iff.mp hbracket
    exact firstFault?_of_offence (by simpa [Stack.offence?, hdepth] using hdeep)
  | case7 outer depth position c rest _ _ bracket hbracket hopen fault hfault ih =>
    -- what stands between brackets
    cases h
    obtain rfl := openedBy?_eq_some_iff.mp hbracket
    rw [firstFault?_of_sound (by simpa [Stack.offence?, hdepth] using hopen)]
    simpa [Stack.advance] using ih (outer.toList ++ stack) (by simp) (by simp [hdepth]) hfault
  | case8 outer depth position c rest _ _ bracket hbracket hopen inner hinner fault hfault _ ihrest =>
    -- what follows a closed bracket
    cases h
    obtain rfl := openedBy?_eq_some_iff.mp hbracket
    have hopened : some (bracket, position) = none → outer.toList ++ stack = [] := by simp
    have hin := firstFault?_of_parseFrom_ok (outer.toList ++ stack) hopened (by simp [hdepth]) hinner
    rw [firstFault?_of_sound (by simpa [Stack.offence?, hdepth] using hopen)]
    simpa [Stack.advance] using hin.trans (ihrest stack hstack hdepth hfault)
  | case10 outer depth position c rest hclosed _ _ bracket hbracket =>
    -- a bracket that is not the partner of the innermost one
    cases h
    obtain rfl := closedBy?_eq_some_iff.mp hbracket
    apply firstFault?_of_offence
    cases outer with
    | none => simp [Stack.offence?, hstack rfl]
    | some innermost => simpa [Stack.offence?, eq_comm] using hclosed
  | case11 outer depth position c rest _ hkind hopened hclosed =>
    -- a byte that stands for nothing
    cases h
    exact firstFault?_of_offence (by simp [Stack.offence?, hkind, hopened, hclosed])
  | case1 | case3 | case5 | case9 => cases h

end Reading

/-! ## Main statement -/

/-- **Reading a text fails exactly where a stack of brackets goes wrong.** The error has the position and the cause of
    the first byte that opens a bracket while `maxDepth` are open, that closes another bracket than the innermost one,
    or that stands for nothing. If there is no such byte, it has the position of the innermost bracket that is still
    open at the end, and names it as unclosed. Its message says all three. -/
theorem parse_eq_error_iff {text : String} {e : BlobError} :
    parse text = .error e ↔
      ∃ position fault, FaultAt (.ofText text) position fault ∧ e = .signature text position fault ∧
        e.message = s!"invalid signature '{text}' at position {position}: {fault.message}" := by
  rw [parse]
  cases hparse : parseFrom none 0 0 (.ofText text) with
  | ok r =>
    -- nothing is left, and no bracket is open
    have hpass := firstFault?_of_parseFrom_ok [] (fun _ => rfl) rfl hparse
    rw [(spells_of_parseFrom (Nat.zero_le _) hparse).rest_eq_nil rfl] at hpass
    constructor
    · intro h
      cases h
    · rintro ⟨position, fault, hfault, -, -⟩
      have hfound := firstFault?_eq_some_iff.mpr hfault
      cases hpass.symm.trans hfound
  | error first =>
    -- the pass finds one fault only, and it is the one that is reported
    have hpass := firstFault?_of_parseFrom_error [] (fun _ => rfl) rfl hparse
    obtain ⟨position, fault⟩ := first
    constructor
    · intro h
      cases h
      exact ⟨position, fault, firstFault?_eq_some_iff.mp hpass, rfl, rfl⟩
    · rintro ⟨position', fault', hfault, rfl, -⟩
      have hfound := firstFault?_eq_some_iff.mpr hfault
      cases hpass.symm.trans hfound
      rfl

/-- The inner bracket is the one that is missing its partner, though the outer one is not closed either. -/
example : firstFault? [] 0 (.ofText "s[i\x7bf") = some (3, .unclosed .brace) := by decide +kernel

end FieldTree.Signature
