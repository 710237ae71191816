/-
  THE ON-DISK FORM of a node list (`serialize_tree` / `deserialize_tree` of
  `seed/saios/src/driver/storage.rs`): a magic number, a version, a 32-bit node count, then per node a
  kind byte, a 16-bit path length, a 32-bit data length, the path and the data.

  1. **Program** — `serializeTree`, `deserializeTree`.  The cursor `at` of the source is the list of
     the bytes behind it.

  2. **What parses** (`deserializeTree_eq_some`) — bytes read as a node list exactly when the list is within
     the field widths (`Widths`) and the bytes START with its serialized form.  There is one case per field.

  3. **Round trip** (`deserialize_fit`) — a list written into a space it fits, zero padding included, reads
     back as itself, in the same order.

  4. **Cut off** (`deserialize_cut`) — a list that does NOT fit is unreadable: what was read from the cut form
     would be read from the whole form.
-/
import Saios.Storage.Nodes

namespace Saios.Storage

open Bytes List Option

def fatStoreMagic : List UInt8 := utf8 "SAFAT32\x00".toList

def fatStoreVersion : Nat := 1

def kindByte : FsNodeKind → UInt8
  | .file => 1
  | .directory => 2

def serializeNode (node : FsNode) : List UInt8 :=
  let p := utf8 node.path
  [kindByte node.kind] ++ leBytes 2 p.length ++ leBytes 4 node.data.length ++ p ++ node.data

def serializeTree (nodes : List FsNode) : List UInt8 :=
  fatStoreMagic ++ leBytes 4 fatStoreVersion ++ leBytes 4 nodes.length ++ nodes.flatMap serializeNode

/-- The next `n` bytes and what is behind them. -/
def takeBytes (n : Nat) (bytes : List UInt8) : Option (List UInt8 × List UInt8) :=
  if n ≤ bytes.length then some (bytes.take n, bytes.drop n) else none

def parseKind : List UInt8 → Option (FsNodeKind × List UInt8)
  | 1 :: rest => some (.file, rest)
  | 2 :: rest => some (.directory, rest)
  | _ => none

/-- A `w`-byte little-endian number and what is behind it. -/
def parseNat (w : Nat) (bytes : List UInt8) : Option (Nat × List UInt8) :=
  (leAt w bytes 0).map fun n => (n, bytes.drop w)

/-- One round of the loop of `deserialize_tree`. -/
def parseNode (bytes : List UInt8) : Option (FsNode × List UInt8) := do
  let (kind, bytes) ← parseKind bytes
  let (pathLen, bytes) ← parseNat 2 bytes
  let (dataLen, bytes) ← parseNat 4 bytes
  let (p, bytes) ← takeBytes pathLen bytes
  let path ← fromUtf8 p
  let (data, bytes) ← takeBytes dataLen bytes
  some ({ path := path, kind := kind, data := data }, bytes)

def parseNodes : Nat → List UInt8 → Option (List FsNode × List UInt8)
  | 0, bytes => some ([], bytes)
  | count + 1, bytes => do
      let (node, bytes) ← parseNode bytes
      let (nodes, bytes) ← parseNodes count bytes
      some (node :: nodes, bytes)

/-- `deserialize_tree`, with the bytes it did not read. -/
def parseTree (bytes : List UInt8) : Option (List FsNode × List UInt8) := do
  if bytes.length < 16 then none
  else
    let (magic, bytes) ← takeBytes 8 bytes
    if magic ≠ fatStoreMagic then none
    else
      let (version, bytes) ← parseNat 4 bytes
      if version ≠ fatStoreVersion then none
      else
        let (count, bytes) ← parseNat 4 bytes
        parseNodes count bytes

def deserializeTree (bytes : List UInt8) : Option (List FsNode) := (parseTree bytes).map Prod.fst

/-! ## Field widths -/

/-- The node's lengths fit their fields. -/
def FsNode.Narrow (node : FsNode) : Prop :=
  (utf8 node.path).length < 2 ^ 16 ∧ node.data.length < 2 ^ 32

instance (node : FsNode) : Decidable node.Narrow := inferInstanceAs (Decidable (_ ∧ _))

/-- Every length of the list fits its field. -/
def Widths (nodes : List FsNode) : Prop := nodes.length < 2 ^ 32 ∧ ∀ n ∈ nodes, n.Narrow

instance (nodes : List FsNode) : Decidable (Widths nodes) := inferInstanceAs (Decidable (_ ∧ _))

/-! ## What parses is a serialized form -/

variable {n : Nat} {bytes rest : List UInt8}

theorem takeBytes_eq_some {front : List UInt8} :
    takeBytes n bytes = some (front, rest) ↔ front.length = n ∧ bytes = front ++ rest := by
  unfold takeBytes
  constructor
  · intro h
    split at h
    · next hle =>
      cases h
      exact ⟨length_take_of_le hle, (take_append_drop n bytes).symm⟩
    · cases h
  · rintro ⟨hlen, rfl⟩
    rw [if_pos (by rw [length_append]; omega), take_left' hlen, drop_left' hlen]

theorem parseNat_eq_some {w : Nat} :
    parseNat w bytes = some (n, rest) ↔ n < 256 ^ w ∧ bytes = leBytes w n ++ rest := by
  unfold parseNat
  constructor
  · intro h
    obtain ⟨m, hm, heq⟩ := map_eq_some_iff.mp h
    cases heq
    exact leAt_eq_some.mp hm
  · rintro ⟨hlt, rfl⟩
    have hdrop : (leBytes w n ++ rest).drop w = rest := drop_left' (length_leBytes w n)
    rw [leAt_eq_some.mpr ⟨hlt, by rw [hdrop]⟩, map_some, hdrop]

theorem parseKind_eq_some {kind : FsNodeKind} :
    parseKind bytes = some (kind, rest) ↔ bytes = kindByte kind :: rest := by
  constructor
  · intro h
    unfold parseKind at h
    split at h
    · cases h
      rfl
    · cases h
      rfl
    · cases h
  · rintro rfl
    cases kind <;> rfl

theorem parseNode_eq_some {node : FsNode} :
    parseNode bytes = some (node, rest) ↔ node.Narrow ∧ bytes = serializeNode node ++ rest := by
  have hshape : serializeNode node ++ rest = kindByte node.kind ::
      (leBytes 2 (utf8 node.path).length ++ (leBytes 4 node.data.length ++
        (utf8 node.path ++ (node.data ++ rest)))) := by
    simp only [serializeNode, append_assoc, cons_append, nil_append]
  rw [hshape]
  unfold parseNode
  simp only [bind_eq_bind, bind_eq_some_iff]
  constructor
  · rintro ⟨⟨kind, b1⟩, h1, ⟨pathLen, b2⟩, h2, ⟨dataLen, b3⟩, h3, ⟨p, b4⟩, h4, path, h5, ⟨data, b5⟩, h6, h7⟩
    cases h7
    obtain rfl := parseKind_eq_some.mp h1
    obtain ⟨hpath, rfl⟩ := parseNat_eq_some.mp h2
    obtain ⟨hdata, rfl⟩ := parseNat_eq_some.mp h3
    obtain ⟨rfl, rfl⟩ := takeBytes_eq_some.mp h4
    obtain rfl := fromUtf8_eq_some.mp h5
    obtain ⟨rfl, rfl⟩ := takeBytes_eq_some.mp h6
    exact ⟨⟨hpath, hdata⟩, rfl⟩
  · rintro ⟨⟨hpath, hdata⟩, rfl⟩
    exact ⟨_, parseKind_eq_some.mpr rfl, _, parseNat_eq_some.mpr ⟨hpath, rfl⟩, _, parseNat_eq_some.mpr ⟨hdata, rfl⟩,
      _, takeBytes_eq_some.mpr ⟨rfl, rfl⟩, _, fromUtf8_eq_some.mpr rfl, _, takeBytes_eq_some.mpr ⟨rfl, rfl⟩, rfl⟩

variable {nodes : List FsNode}

theorem parseNodes_eq_some {count : Nat} :
    parseNodes count bytes = some (nodes, rest) ↔
      nodes.length = count ∧ (∀ n ∈ nodes, n.Narrow) ∧ bytes = nodes.flatMap serializeNode ++ rest := by
  induction count generalizing nodes bytes with
  | zero =>
    rw [parseNodes, some.injEq, Prod.mk.injEq]
    constructor
    · rintro ⟨rfl, rfl⟩
      exact ⟨rfl, nofun, rfl⟩
    · rintro ⟨hlen, -, rfl⟩
      obtain rfl := length_eq_zero_iff.mp hlen
      exact ⟨rfl, rfl⟩
  | succ count ih =>
    rw [parseNodes]
    simp only [bind_eq_bind, bind_eq_some_iff]
    constructor
    · rintro ⟨⟨node, b1⟩, h1, ⟨more, b2⟩, h2, h3⟩
      cases h3
      obtain ⟨hnarrow, rfl⟩ := parseNode_eq_some.mp h1
      obtain ⟨hlen, hall, rfl⟩ := ih.mp h2
      refine ⟨by rw [length_cons, hlen], forall_mem_cons.mpr ⟨hnarrow, hall⟩, ?_⟩
      rw [flatMap_cons, append_assoc]
    · rintro ⟨hlen, hall, rfl⟩
      cases nodes with
      | nil => cases hlen
      | cons node nodes =>
        obtain ⟨hnarrow, hall⟩ := forall_mem_cons.mp hall
        refine ⟨_, parseNode_eq_some.mpr ⟨hnarrow, ?_⟩, _, ih.mpr ⟨Nat.succ.inj hlen, hall, rfl⟩, rfl⟩
        rw [flatMap_cons, append_assoc]

theorem length_fatStoreMagic : fatStoreMagic.length = 8 := by decide

/-- **What parses is what was serialized**, and the parser stops exactly at its end. -/
theorem parseTree_eq_some :
    parseTree bytes = some (nodes, rest) ↔ Widths nodes ∧ bytes = serializeTree nodes ++ rest := by
  have hshape : serializeTree nodes ++ rest = fatStoreMagic ++ (leBytes 4 fatStoreVersion ++
      (leBytes 4 nodes.length ++ (nodes.flatMap serializeNode ++ rest))) := by
    simp only [serializeTree, append_assoc]
  rw [hshape]
  unfold parseTree
  constructor
  · intro h
    split at h
    · cases h
    obtain ⟨⟨magic, b1⟩, h1, hafter⟩ := bind_eq_some_iff.mp h
    dsimp only at hafter
    split at hafter
    · cases hafter
    next hmagic =>
    obtain ⟨⟨version, b2⟩, h2, hcounted⟩ := bind_eq_some_iff.mp hafter
    dsimp only at hcounted
    split at hcounted
    · cases hcounted
    next hversion =>
    obtain ⟨⟨count, b3⟩, h3, hnodes⟩ := bind_eq_some_iff.mp hcounted
    obtain ⟨-, rfl⟩ := takeBytes_eq_some.mp h1
    obtain ⟨-, rfl⟩ := parseNat_eq_some.mp h2
    obtain ⟨hcount, rfl⟩ := parseNat_eq_some.mp h3
    obtain ⟨rfl, hall, rfl⟩ := parseNodes_eq_some.mp hnodes
    rw [not_ne_iff.mp hmagic, not_ne_iff.mp hversion]
    exact ⟨⟨hcount, hall⟩, rfl⟩
  · rintro ⟨hwidths, rfl⟩
    rw [takeBytes_eq_some.mpr ⟨length_fatStoreMagic, rfl⟩]
    simp only [bind_eq_bind, bind_some]
    rw [parseNat_eq_some.mpr ⟨by decide, rfl⟩]
    simp only [bind_some]
    rw [parseNat_eq_some.mpr ⟨hwidths.1, rfl⟩]
    exact parseNodes_eq_some.mpr ⟨rfl, hwidths.2, rfl⟩

/-- **The bytes read as a node list exactly when they start with its serialized form.** -/
theorem deserializeTree_eq_some :
    deserializeTree bytes = some nodes ↔ Widths nodes ∧ serializeTree nodes <+: bytes := by
  rw [deserializeTree, map_eq_some_iff]
  constructor
  · rintro ⟨⟨nodes, rest⟩, hparse, rfl⟩
    obtain ⟨hwidths, rfl⟩ := parseTree_eq_some.mp hparse
    exact ⟨hwidths, prefix_append _ _⟩
  · rintro ⟨hwidths, rest, rfl⟩
    exact ⟨_, parseTree_eq_some.mpr ⟨hwidths, rfl⟩, rfl⟩

/-! ## Reading a partition back -/

/-- **What fits reads back**, whatever the padding. -/
theorem deserialize_fit (h : Widths nodes) (hfit : (serializeTree nodes).length ≤ n) :
    deserializeTree (fit n (serializeTree nodes)) = some nodes := by
  rw [deserializeTree_eq_some, fit, take_of_length_le hfit]
  exact ⟨h, prefix_append _ _⟩

/-- **What does not fit is unreadable.** -/
theorem deserialize_cut (h : Widths nodes) (hcut : n < (serializeTree nodes).length) :
    deserializeTree (fit n (serializeTree nodes)) = none := by
  rw [fit, Nat.sub_eq_zero_of_le (Nat.le_of_lt hcut), replicate_zero, append_nil]
  by_contra hsome
  obtain ⟨other, hother⟩ := ne_none_iff_exists'.mp hsome
  obtain ⟨hwidths, hfront⟩ := deserializeTree_eq_some.mp hother
  -- the other list would be read from the whole form as well
  have hlong := hfront.trans ( take_prefix n _)
  have hsame : deserializeTree (serializeTree nodes) = some other := deserializeTree_eq_some.mpr ⟨hwidths, hlong⟩
  rw [deserializeTree_eq_some.mpr ⟨h, prefix_rfl⟩] at hsame
  obtain rfl := some.inj hsame
  have hlen := hfront.length_le
  rw [length_take] at hlen
  omega

end Saios.Storage
