import FieldTree.Proofs.Children
import FieldTree.Proofs.Layout

/-!
# Value Trees

A value tree is what a blob says, without the bytes that say it: scalars with a type and a payload, and
arrays and tables of value trees. A tree is written by the calls that a writer makes for it, it is encoded
by recursion on its structure, and a field is read back as a tree by a walk over its children.

## Architecture

- `Tree.encode`: the reference encoding.
- `Tree.write`: the writer's calls, with every container opened, filled and closed.
- `Field.tree`: what a field says.
- `Tree.write_extends`, `Tree.write_exceeds`: writing appends the encoding, or fails for want of room.
- `Tree.tree_field`: the field that an encoding makes says what was encoded.
-/

namespace FieldTree

/-- A scalar, or a container with its elements. -/
inductive Tree where
  | scalar (type : FieldType) (isScalar : type.isContainer = false) (payload : Bytes)
  | node (bracket : Bracket) (children : List Tree)
  deriving Repr

/-- The big-endian word in front of a field: the type's tag above a length of 24 bits. -/
def headerWord (t : FieldType) (length : Nat) : Bytes :=
  .bigEndian headerSize (t.tag * 2 ^ 24 + length)

namespace Tree

/-! ## Encoding and writing -/

mutual

/-- The reference encoding of a tree. -/
def encode : Tree → Bytes
  | scalar t _ payload =>
    let length := headerSize + payload.length
    headerWord t length ++ payload ++ .zeros (alignUp length - length)
  | node bracket children =>
    headerWord bracket.container (headerSize + (encodeAll children).length) ++ encodeAll children

/-- The encodings of trees one after the other. -/
def encodeAll : List Tree → Bytes
  | [] => []
  | t :: ts => t.encode ++ encodeAll ts

end

mutual

/-- Writes a tree at the end of a blob. -/
def write (b : Blob) : Tree → Except SizeLimit Blob
  | scalar t _ payload => (b.putScalar t payload).map (·.2)
  | node bracket children => do
    let (offset, opened) ← b.openContainer bracket
    let filled ← writeAll opened children
    return filled.close offset

/-- Writes trees one after the other. -/
def writeAll (b : Blob) : List Tree → Except SizeLimit Blob
  | [] => .ok b
  | t :: ts => do writeAll (← t.write b) ts

end

/-- The field that a tree is encoded as. -/
def field : Tree → Field
  | scalar t _ payload =>
    let length := headerSize + payload.length
    ⟨.new t length, payload ++ .zeros (alignUp length - length)⟩
  | node bracket children =>
    ⟨.new bracket.container (headerSize + (encodeAll children).length), encodeAll children⟩

/-! ## The encoding as bytes of fields -/

theorem headerWord_eq {n : Nat} (t : FieldType) (hlow : headerSize ≤ n) (hhigh : n ≤ maxLength) :
    headerWord t n = (Header.new t n).toBytes := by
  have hlength : ((Header.new t n).length : Nat) = n := Header.rawLength_new t hlow hhigh
  rw [headerWord, Header.toBytes, Header.word, hlength]
  simp [Header.new, Header.withLength, headerSize]

theorem length_headerWord (t : FieldType) (n : Nat) : (headerWord t n).length = headerSize :=
  Bytes.length_bigEndian _ _

theorem length_encode_scalar {t : FieldType} {h : t.isContainer = false} {payload : Bytes} :
    (scalar t h payload).encode.length = (Item.mk t payload).toBytes.length := by
  have hle := le_alignUp (headerSize + payload.length)
  rw [Item.toBytes_length]
  simp only [encode, statedLength, List.length_append, length_headerWord, Bytes.length_zeros]
  omega

theorem length_encode_node {bracket : Bracket} {ts : List Tree} :
    (node bracket ts).encode.length = headerSize + (encodeAll ts).length := by
  simp only [encode, List.length_append, length_headerWord]

/-- An encoding whose length fits a header is the field of its tree. -/
theorem encode_eq_bytes (t : Tree) (h : t.encode.length ≤ maxLength) : t.encode = t.field.bytes := by
  cases t with
  | scalar t isScalar payload =>
    rw [length_encode_scalar, Item.toBytes_length, statedLength] at h
    have hstated : headerSize + payload.length ≤ maxLength := Nat.le_trans (le_alignUp _) h
    simp only [encode, field, Field.bytes]
    rw [headerWord_eq t (Nat.le_add_right _ _) hstated, List.append_assoc]
  | node bracket children =>
    rw [length_encode_node] at h
    simp only [encode, field, Field.bytes]
    rw [headerWord_eq _ (Nat.le_add_right _ _) h]

theorem encode_scalar_eq {t : FieldType} {isScalar : t.isContainer = false} {payload : Bytes}
    (h : (scalar t isScalar payload).encode.length ≤ maxLength) :
    (scalar t isScalar payload).encode = (Item.mk t payload).toBytes := by
  rw [encode_eq_bytes _ h]
  simp only [field, Field.bytes, Item.toBytes, statedLength, List.append_assoc]

theorem toBytes_ofBracket (bracket : Bracket) :
    (Item.ofBracket bracket).toBytes = (Header.new bracket.container headerSize).toBytes := by
  cases bracket <;> rfl

theorem headerSize_le_encode (t : Tree) : headerSize ≤ t.encode.length := by
  cases t with
  | scalar =>
    rw [length_encode_scalar, Item.toBytes_length]
    exact Nat.le_trans (Nat.le_add_right _ _) (le_alignUp _)
  | node => rw [length_encode_node]; exact Nat.le_add_right _ _

/-! ## Writing appends the encoding -/

mutual

/-- **Writing a tree that fits extends the blob by the encoding of the tree.** -/
theorem write_extends (t : Tree) {b : Blob} (hb : b.Formed)
    (hfits : b.size + t.encode.length ≤ b.config.limit) :
    ∃ b', t.write b = .ok b' ∧ b.Extends b' t.encode := by
  cases t with
  | scalar t isScalar payload =>
    have hmax : (scalar t isScalar payload).encode.length ≤ maxLength :=
      Nat.le_trans (Nat.le_trans (Nat.le_add_left _ _) hfits) b.config.limit_le
    rw [encode_scalar_eq hmax] at hfits ⊢
    refine ⟨b.append ⟨t, payload⟩, ?_, Blob.append_extends hb _ hfits⟩
    rw [write, Blob.putScalar, Blob.put_of_fits hfits]
    rfl
  | node bracket children =>
    rw [length_encode_node] at hfits
    -- the container is opened with nothing in it
    have hempty : (Item.ofBracket bracket).toBytes.length = headerSize := by
      rw [toBytes_ofBracket, Header.length_toBytes, headerSize]
    have hopen : b.size + (Item.ofBracket bracket).toBytes.length ≤ b.config.limit := by
      omega
    have opened := Blob.append_extends hb _ hopen
    -- its elements are written behind it
    obtain ⟨filled, hfilled, more⟩ := writeAll_extends children opened.formed (opened.aligned hb) (by
      rw [opened.size_eq hb, opened.config_eq]; omega)
    have both := opened.trans more hb
    rw [toBytes_ofBracket] at both
    -- and its header is made to cover them
    have closed := both.close hb
    refine ⟨filled.close b.size, ?_, ?_⟩
    · rw [write, Blob.openContainer, Blob.put_of_fits hopen]
      simp only [bind, Except.bind, hfilled, pure, Except.pure]
    · have hmax : headerSize + (encodeAll children).length ≤ maxLength :=
        Nat.le_trans (Nat.le_trans (Nat.le_add_left _ _) hfits) b.config.limit_le
      rw [Header.withLength_new, ← headerWord_eq _ (Nat.le_add_right _ _) hmax] at closed
      exact closed

theorem writeAll_extends (ts : List Tree) {b : Blob} (hb : b.Formed)
    (aligned : b.root.rawLength = b.size)
    (hfits : b.size + (encodeAll ts).length ≤ b.config.limit) :
    ∃ b', writeAll b ts = .ok b' ∧ b.Extends b' (encodeAll ts) := by
  cases ts with
  | nil => exact ⟨b, rfl, hb.extends_self aligned hfits⟩
  | cons t ts =>
    rw [encodeAll, List.length_append] at hfits
    obtain ⟨b₁, h₁, first⟩ := write_extends t hb (by omega)
    obtain ⟨b₂, h₂, rest⟩ := writeAll_extends ts first.formed (first.aligned hb) (by
      rw [first.size_eq hb, first.config_eq]; omega)
    refine ⟨b₂, ?_, first.trans rest hb⟩
    rw [writeAll, h₁]
    exact h₂

end

mutual

theorem write_exceeds (t : Tree) {b : Blob} (hb : b.Formed)
    (hexceeds : b.config.limit < b.size + t.encode.length) : ∃ limit, t.write b = .error limit := by
  cases t with
  | scalar t isScalar payload =>
    rw [length_encode_scalar] at hexceeds
    obtain ⟨limit, hl⟩ := Blob.put_of_exceeds hexceeds
    refine ⟨limit, ?_⟩
    rw [write, Blob.putScalar, hl]
    rfl
  | node bracket children =>
    rw [length_encode_node] at hexceeds
    have hempty : (Item.ofBracket bracket).toBytes.length = headerSize := by
      rw [toBytes_ofBracket, Header.length_toBytes, headerSize]
    rw [write, Blob.openContainer]
    -- there may be no room for the header, or room for it but not for all children
    rcases Nat.lt_or_ge b.config.limit (b.size + (Item.ofBracket bracket).toBytes.length) with
      hfull | hopen
    · obtain ⟨limit, hl⟩ := Blob.put_of_exceeds hfull
      exact ⟨limit, by rw [hl]; rfl⟩
    · have opened := Blob.append_extends hb _ hopen
      obtain ⟨limit, hl⟩ := writeAll_exceeds children opened.formed
        (by rw [opened.size_eq hb, opened.config_eq]; omega)
        (by rw [opened.size_eq hb, opened.config_eq]; omega)
      refine ⟨limit, ?_⟩
      rw [Blob.put_of_fits hopen]
      simp only [bind, Except.bind, hl]

theorem writeAll_exceeds (ts : List Tree) {b : Blob} (hb : b.Formed)
    (hsize : b.size ≤ b.config.limit)
    (hexceeds : b.config.limit < b.size + (encodeAll ts).length) :
    ∃ limit, writeAll b ts = .error limit := by
  cases ts with
  | nil => exact absurd hexceeds (Nat.not_lt.mpr hsize)
  | cons t ts =>
    rw [encodeAll, List.length_append] at hexceeds
    rw [writeAll]
    -- the first tree is refused, or it is written and one of the others is refused
    rcases Nat.lt_or_ge b.config.limit (b.size + t.encode.length) with hfull | hfits
    · obtain ⟨limit, hl⟩ := write_exceeds t hb hfull
      exact ⟨limit, by rw [hl]; rfl⟩
    · obtain ⟨b₁, h₁, first⟩ := write_extends t hb hfits
      obtain ⟨limit, hl⟩ := writeAll_exceeds ts first.formed
        (by rw [first.size_eq hb, first.config_eq]; exact hfits)
        (by rw [first.size_eq hb, first.config_eq]; omega)
      exact ⟨limit, by rw [h₁]; exact hl⟩

end

theorem writeAll_append (b : Blob) (ts us : List Tree) :
    writeAll b (ts ++ us) = writeAll b ts >>= fun b' => writeAll b' us := by
  induction ts generalizing b with
  | nil => rfl
  | cons t ts ih =>
    rw [List.cons_append, writeAll, writeAll]
    cases t.write b with
    | error limit => rfl
    | ok b' => exact ih b'

end Tree

/-! ## Fields as trees -/

namespace Field

/-- What a field says: a scalar's type and payload, or the kind of a container and what its children
    say. -/
def tree (f : Field) : Tree :=
  if h : f.type.isContainer = false then .scalar f.type h f.data
  else
    .node (if f.type = .array then .square else .brace) (f.children.attach.map fun c => c.1.tree)
  termination_by f.body.length
  decreasing_by exact length_body_lt_of_mem_children c.2

theorem tree_of_scalar {f : Field} (h : f.type.isContainer = false) :
    f.tree = .scalar f.type h f.data := by
  rw [tree, dif_pos h]

theorem tree_of_container {f : Field} {bracket : Bracket} (h : f.type = bracket.container) :
    f.tree = .node bracket (f.children.map tree) := by
  -- the brackets can be told from the type
  have hcontainer : ¬f.type.isContainer = false := by simp [h]
  have hbracket : (if f.type = .array then Bracket.square else .brace) = bracket := by
    rw [h]; cases bracket <;> rfl
  rw [tree, dif_neg hcontainer, hbracket, List.attach_map_val (f := tree)]

end Field

/-! ## Encodings read back -/

namespace Tree

mutual

theorem dvd_length_encode (t : Tree) : 4 ∣ t.encode.length := by
  cases t with
  | scalar => rw [length_encode_scalar, Item.toBytes_length]; exact dvd_alignUp _
  | node bracket children =>
    rw [length_encode_node]
    exact Nat.dvd_add (Nat.dvd_refl headerSize) (dvd_length_encodeAll children)

theorem dvd_length_encodeAll (ts : List Tree) : 4 ∣ (encodeAll ts).length := by
  cases ts with
  | nil => exact Nat.dvd_zero _
  | cons t ts =>
    rw [encodeAll, List.length_append]
    exact Nat.dvd_add (dvd_length_encode t) (dvd_length_encodeAll ts)

end

/-- The header of an encoding states the room that is behind it. -/
theorem bodyRoom_field (t : Tree) (h : t.encode.length ≤ maxLength) :
    Field.bodyRoom t.field.header = t.field.body.length := by
  cases t with
  | scalar t isScalar payload =>
    rw [length_encode_scalar, Item.toBytes_length, statedLength] at h
    have hle := le_alignUp (headerSize + payload.length)
    simp only [field, Field.bodyRoom, Header.paddedLength, List.length_append, Bytes.length_zeros]
    rw [Header.rawLength_new _ (Nat.le_add_right _ _) (Nat.le_trans hle h)]
    omega
  | node bracket children =>
    rw [length_encode_node] at h
    have hdvd : 4 ∣ headerSize + (encodeAll children).length :=
      Nat.dvd_add (Nat.dvd_refl headerSize) (dvd_length_encodeAll children)
    simp only [field, Field.bodyRoom, Header.paddedLength]
    rw [Header.rawLength_new _ (Nat.le_add_right _ _) h, alignUp_of_dvd hdvd,
      Nat.add_sub_cancel_left]

/-- **A walk over encodings finds the fields of their trees.** -/
theorem siblings_encodeAll (ts : List Tree) (offset : Nat)
    (h : (encodeAll ts).length ≤ maxLength) :
    (Field.siblings offset 0 (encodeAll ts)).map (·.2) = ts.map field := by
  induction ts generalizing offset with
  | nil => rfl
  | cons t ts ih =>
    -- one field is read, its padding is stepped over, and the rest is walked
    rw [encodeAll, List.length_append] at h
    have hroom := bodyRoom_field t (by omega)
    rw [encodeAll, encode_eq_bytes t (by omega), Field.bytes, List.append_assoc,
      Field.siblings_header, hroom, List.take_left, List.drop_left, List.map_cons, List.map_cons,
      ih _ (by omega)]

theorem children_field {bracket : Bracket} {ts : List Tree}
    (h : (node bracket ts).encode.length ≤ maxLength) :
    (node bracket ts).field.children = ts.map field := by
  rw [length_encode_node] at h
  have hraw : (node bracket ts).field.rawLength = headerSize + (encodeAll ts).length :=
    Header.rawLength_new _ (Nat.le_add_right _ _) h
  rw [Field.children, Field.placedChildren, hraw]
  cases ts with
  | nil => rfl
  | cons t ts =>
    have hsome := headerSize_le_encode t
    -- with a child there is more than a header, so the children are looked for
    have hpos : 0 < headerSize := by decide
    rw [if_neg (by rw [encodeAll, List.length_append]; omega)]
    exact siblings_encodeAll _ _ (by omega)

theorem type_field_node {bracket : Bracket} {ts : List Tree} :
    (node bracket ts).field.type = bracket.container := Header.type_new _ _

theorem type_field_scalar {t : FieldType} {isScalar : t.isContainer = false} {payload : Bytes} :
    (scalar t isScalar payload).field.type = t := Header.type_new _ _

theorem isContainer_field_scalar {t : FieldType} {isScalar : t.isContainer = false} {payload : Bytes} :
    (scalar t isScalar payload).field.type.isContainer = false := by
  rw [type_field_scalar]
  exact isScalar

/-- The payload of a scalar is what was put. -/
theorem data_field_scalar {t : FieldType} {isScalar : t.isContainer = false} {payload : Bytes}
    (h : (scalar t isScalar payload).encode.length ≤ maxLength) :
    (scalar t isScalar payload).field.data = payload := by
  rw [length_encode_scalar, Item.toBytes_length, statedLength] at h
  have hstated := Nat.le_trans (le_alignUp _) h
  simp only [field, Field.data, Header.dataLength]
  rw [Header.rawLength_new _ (Nat.le_add_right _ _) hstated, Nat.add_sub_cancel_left, List.take_left]

mutual

/-- **The field of an encoding says what was encoded.** -/
theorem tree_field (t : Tree) (h : t.encode.length ≤ maxLength) : t.field.tree = t := by
  cases t with
  | scalar t isScalar payload =>
    rw [Field.tree_of_scalar isContainer_field_scalar]
    simp only [type_field_scalar, data_field_scalar h]
  | node bracket children =>
    have hinside : (encodeAll children).length ≤ maxLength := by
      rw [length_encode_node] at h; omega
    rw [Field.tree_of_container type_field_node, children_field h, tree_fields children hinside]

theorem tree_fields (ts : List Tree) (h : (encodeAll ts).length ≤ maxLength) :
    (ts.map field).map Field.tree = ts := by
  cases ts with
  | nil => rfl
  | cons t ts =>
    rw [encodeAll, List.length_append] at h
    rw [List.map_cons, List.map_cons, tree_field t (by omega), tree_fields ts (by omega)]

end

end Tree

/-! ## Blobs as trees -/

namespace Blob

/-- A blob in which nothing was written yet. -/
inductive Fresh : Blob → Prop where
  | new : Fresh .new
  | create {config : Config} {b : Blob} : Blob.create config = .ok b → Fresh b
  | reset (b : Blob) : Fresh b.reset

/-- The blob holds nothing but an empty root. -/
def Blank (b : Blob) (bracket : Bracket) : Prop :=
  b.content = (Header.new bracket.container headerSize).toBytes ++ []

/-- A fresh blob is an array without elements. -/
theorem Fresh.blank {b : Blob} (h : b.Fresh) : b.Blank .square := by
  cases h with
  | new => rfl
  | @create config b hcreate =>
    unfold Blob.create at hcreate
    dsimp only at hcreate
    split at hcreate
    · cases hcreate
    · cases hcreate; rfl
  | reset b => rfl

namespace Blank

variable {b b' : Blob} {bracket : Bracket} {ts : List Tree}

theorem root_eq (h : b.Blank bracket) : b.root = .new bracket.container headerSize :=
  root_of_content h

theorem body_eq (h : b.Blank bracket) : b.body = [] := body_of_content h

theorem formed (h : b.Blank bracket) : b.Formed := by
  cases bracket with
  | square => exact formed_of_content h rfl (Nat.le_refl _) rfl
  | brace => exact formed_of_content h rfl (Nat.le_refl _) rfl

theorem size_eq (h : b.Blank bracket) : b.size = headerSize := by
  rw [h.formed.size_eq, h.body_eq]
  rfl

theorem aligned (h : b.Blank bracket) : b.root.rawLength = b.size := by
  rw [h.size_eq, h.root_eq]
  cases bracket <;> rfl

/-- The brackets of an empty root can be changed. -/
theorem withRootType (h : b.Blank bracket) (other : Bracket) :
    (b.withRootType other.container).Blank other := by
  rw [Blank, content_withRootType h.formed, h.root_eq, h.body_eq]
  rfl

/-- Trees are written exactly where they fit; no tree always fits. -/
theorem writeAll_eq_ok_iff (h : b.Blank bracket) :
    (∃ b', Tree.writeAll b ts = .ok b') ↔
      ts = [] ∨ (Tree.node bracket ts).encode.length ≤ b.config.limit := by
  rw [Tree.length_encode_node, ← h.size_eq]
  constructor
  · rintro ⟨b', hb'⟩
    cases ts with
    | nil => exact Or.inl rfl
    | cons t ts =>
      refine Or.inr (Nat.not_lt.mp fun hexceeds => ?_)
      -- the first tree is refused, or else some bytes are left and a later one is refused
      rcases Nat.lt_or_ge b.config.limit (b.size + t.encode.length) with hfirst | hfits
      · obtain ⟨limit, hl⟩ := Tree.write_exceeds t h.formed hfirst
        rw [Tree.writeAll, hl] at hb'
        cases hb'
      · obtain ⟨limit, hl⟩ := Tree.writeAll_exceeds (t :: ts) h.formed
          (Nat.le_trans (Nat.le_add_right _ _) hfits) hexceeds
        rw [hl] at hb'
        cases hb'
  · rintro (rfl | hfits)
    · exact ⟨b, rfl⟩
    · obtain ⟨b', hwrite, -⟩ := Tree.writeAll_extends ts h.formed h.aligned hfits
      exact ⟨b', hwrite⟩

/-- **What was written under an empty root is one encoded container.** -/
theorem of_writeAll (h : b.Blank bracket) (hwrite : Tree.writeAll b ts = .ok b') :
    b'.Formed ∧ b'.config = b.config ∧ b'.head = (Tree.node bracket ts).field ∧
      (Tree.node bracket ts).encode.length ≤ maxLength := by
  rcases h.writeAll_eq_ok_iff.mp ⟨b', hwrite⟩ with rfl | hfits
  · cases hwrite
    refine ⟨h.formed, rfl, ?_, by cases bracket <;> decide⟩
    rw [h.formed.head_eq, h.root_eq, h.body_eq]
    rfl
  · have hroom := hfits
    rw [Tree.length_encode_node, ← h.size_eq] at hroom
    obtain ⟨b₁, hwrite₁, e⟩ := Tree.writeAll_extends ts h.formed h.aligned hroom
    rw [hwrite] at hwrite₁
    cases hwrite₁
    refine ⟨e.formed, e.config_eq, ?_, Nat.le_trans hfits b.config.limit_le⟩
    rw [e.formed.head_eq, e.root_eq, e.body_eq, h.root_eq, h.body_eq, h.size_eq, List.nil_append,
      Header.withLength_new]
    rfl

theorem content_writeAll (h : b.Blank bracket) (hwrite : Tree.writeAll b ts = .ok b') :
    b'.content = (Tree.node bracket ts).encode := by
  obtain ⟨hformed, -, hhead, hmax⟩ := h.of_writeAll hwrite
  rw [hformed.head_eq] at hhead
  rw [hformed.content_eq, Tree.encode_eq_bytes _ hmax, ← hhead]
  rfl

end Blank

/-- **Writer and reader are inverse.** Trees that fit are written to a fresh blob without a refusal; the
    content is then their reference encoding, and it reads back as the trees. -/
theorem write_read (ts : List Tree) {b : Blob} (hfresh : b.Fresh)
    (hfits : headerSize + (Tree.encodeAll ts).length ≤ b.config.limit) :
    ∃ b', Tree.writeAll b ts = .ok b' ∧
      b'.content = (Tree.node .square ts).encode ∧
      b'.head.type = .array ∧
      b'.head.children.map Field.tree = ts := by
  have hblank := hfresh.blank
  have hlength : (Tree.node .square ts).encode.length = _ := Tree.length_encode_node
  rw [← hlength] at hfits
  obtain ⟨b', hwrite⟩ := hblank.writeAll_eq_ok_iff.mpr (Or.inr hfits)
  obtain ⟨-, -, hhead, hmax⟩ := hblank.of_writeAll hwrite
  refine ⟨b', hwrite, hblank.content_writeAll hwrite, ?_, ?_⟩
  · rw [hhead]
    exact Tree.type_field_node
  · rw [hhead, Tree.children_field hmax]
    exact Tree.tree_fields ts (Nat.le_trans (Nat.le_add_left _ _) (Tree.length_encode_node ▸ hmax))

/-- A table that holds a list, which outgrows the first block, and a field without a known type. -/
def sampleTrees : List Tree :=
  [.node .brace
      [.scalar .binary rfl [0x6b, 0],
        .node .square [.scalar .float32 rfl [1], .scalar .binary rfl (List.replicate 300 7), .node .brace []]],
    .scalar .invalid rfl []]

theorem write_read_sampleTrees :
    Fresh .new ∧ headerSize + (Tree.encodeAll sampleTrees).length ≤ Blob.new.config.limit ∧
      ∃ b', Tree.writeAll .new sampleTrees = .ok b' ∧
        b'.content = (Tree.node .square sampleTrees).encode ∧
        b'.head.type = .array ∧
        b'.head.children.map Field.tree = sampleTrees :=
  ⟨.new, by decide +kernel, write_read sampleTrees .new (by decide +kernel)⟩

end Blob

end FieldTree
