import FieldTree.Header

/-!
# Storage

A blob keeps its bytes packed in one stretch of memory, so that its end can be extended and single bytes can
be changed without a walk over all of them. The list of the bytes is the view under which everything about
blobs is stated.

## Main statements

Every operation has one lemma that says what it does to the view:

- `Storage.toList_ofList`, `Storage.toList_append`, `Storage.toList_patch`, `Storage.toList_take`
- `Storage.slice_eq`, `Storage.size_eq`, `Storage.header?_eq`
-/

namespace FieldTree

/-- A byte string in one stretch of memory. -/
structure Storage where
  packed : ByteArray

namespace Storage

/-- The stored bytes. -/
def toList (s : Storage) : Bytes := s.packed.data.toList

/-- Storage for a byte string. -/
def ofList (bytes : Bytes) : Storage := ⟨⟨bytes.toArray⟩⟩

/-- How many bytes are stored. -/
def size (s : Storage) : Nat := s.packed.size

/-- Stores more bytes behind those that are there. -/
def append (s : Storage) : Bytes → Storage
  | [] => s
  | b :: rest => append ⟨s.packed.push b⟩ rest

/-- Changes one byte, if it is there. -/
def set (s : Storage) (i : Nat) (b : UInt8) : Storage :=
  if h : i < s.packed.size then ⟨s.packed.set i b h⟩ else s

/-- Replaces the bytes from `offset` on. -/
def patch (s : Storage) (offset : Nat) : Bytes → Storage
  | [] => s
  | b :: rest => patch (s.set offset b) (offset + 1) rest

/-- Keeps the first `n` bytes. -/
def take (s : Storage) (n : Nat) : Storage := ⟨s.packed.extract 0 n⟩

/-- The bytes from `start` up to and excluding `stop`. -/
def slice (s : Storage) (start stop : Nat) : Bytes := (s.packed.extract start stop).data.toList

/-- The header at `offset`, if its four bytes are there. -/
def header? (s : Storage) (offset : Nat) : Option Header :=
  if h : offset + 3 < s.packed.size then
    some (Header.ofWord (Bytes.toNat
      [s.packed[offset], s.packed[offset + 1], s.packed[offset + 2], s.packed[offset + 3]]))
  else none

/-! ## The view -/

/-- Storage is determined by its bytes. -/
theorem ext {s s' : Storage} (h : s.toList = s'.toList) : s = s' := by
  obtain ⟨⟨⟨bytes⟩⟩⟩ := s
  obtain ⟨⟨⟨bytes'⟩⟩⟩ := s'
  cases (show bytes = bytes' from h)
  rfl

@[simp] theorem toList_ofList (bytes : Bytes) : (ofList bytes).toList = bytes := rfl

theorem size_eq (s : Storage) : s.size = s.toList.length := rfl

@[simp] theorem toList_append (s : Storage) (bytes : Bytes) :
    (s.append bytes).toList = s.toList ++ bytes := by
  induction bytes generalizing s with
  | nil => rw [append, List.append_nil]
  | cons b rest ih =>
    rw [append, ih]
    simp [toList, ByteArray.data_push]

@[simp] theorem toList_set (s : Storage) (i : Nat) (b : UInt8) :
    (s.set i b).toList = s.toList.set i b := by
  unfold set
  split
  · rfl
  · next h => exact (List.set_eq_of_length_le (Nat.not_lt.mp h)).symm

@[simp] theorem toList_patch (s : Storage) (offset : Nat) (bytes : Bytes) :
    (s.patch offset bytes).toList = s.toList.patch offset bytes := by
  induction bytes generalizing s offset with
  | nil => rfl
  | cons b rest ih => rw [patch, ih, toList_set, Bytes.patch]

theorem slice_eq (s : Storage) (start stop : Nat) :
    s.slice start stop = s.toList.slice start stop := by
  simp [slice, toList, Bytes.slice, ByteArray.data_extract, List.extract_eq_take_drop, List.drop_take]

@[simp] theorem toList_take (s : Storage) (n : Nat) : (s.take n).toList = s.toList.take n := by
  have h := s.slice_eq 0 n
  rwa [Bytes.slice, List.drop_zero] at h

theorem header?_eq (s : Storage) (offset : Nat) :
    s.header? offset = Header.ofBytes? (s.toList.drop offset) := by
  unfold header?
  split
  · next h =>
    have hl : offset + 3 < s.toList.length := h
    rw [List.drop_eq_getElem_cons (by omega), List.drop_eq_getElem_cons (by omega),
      List.drop_eq_getElem_cons (by omega), List.drop_eq_getElem_cons hl]
    rfl
  · next h =>
    have hl : (s.toList.drop offset).length < 4 := by
      rw [List.length_drop, ← size_eq]
      have : ¬offset + 3 < s.size := h
      omega
    match s.toList.drop offset, hl with
    | [], _ => rfl
    | [_], _ => rfl
    | [_, _], _ => rfl
    | [_, _, _], _ => rfl

end Storage

end FieldTree
