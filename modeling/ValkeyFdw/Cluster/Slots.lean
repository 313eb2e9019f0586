import ValkeyFdw.Server.Value

/-!
# The slots of a cluster

A key belongs to one of 16384 slots: the CRC-16 of its hash tag, or of the whole
key where it has none. A slot map lists the primaries and says which of them
serves each slot; a slot that no primary claimed is served by nobody the map
knows of. A server that does not serve a key answers with a redirect.
-/

namespace ValkeyFdw

/-! ## Slots -/

/-- One step of the CRC register: polynomial `0x1021`, most significant bit first. -/
def crcBit (crc : UInt16) : UInt16 :=
  if crc &&& 0x8000 ≠ 0 then (crc <<< 1) ^^^ 0x1021 else crc <<< 1

def crcByte (crc : UInt16) (b : UInt8) : UInt16 := crcBit^[8] (crc ^^^ (b.toUInt16 <<< 8))

/-- CRC-16/XMODEM. -/
def crc16 (buf : Bytes) : UInt16 := buf.foldl crcByte 0

example : crc16 (ascii "123456789") = 0x31C3 := by decide +kernel

/-- The bytes the slot is computed over: those between the first `\x7b` and the
first `\x7d` after it, unless there are none. -/
def hashtag (key : Bytes) : Bytes :=
  match key.dropWhile (· ≠ 0x7b) with
  | [] => key
  | _ :: after =>
    if 0x7d ∉ after ∨ after.head? = some 0x7d then key else after.takeWhile (· ≠ 0x7d)

abbrev nslots : Nat := 16384

/-- The slot of a key. -/
def slot (key : Bytes) : Fin nslots := Fin.ofNat nslots (crc16 (hashtag key) &&& 0x3FFF).toNat

example : slot (ascii "\x7ba\x7dx") = slot (ascii "\x7ba\x7dy") := by decide +kernel

/-! ## Slot maps -/

/-- The address of a node. -/
structure Node where
  host : Bytes
  port : Nat
deriving DecidableEq

/-- The primaries of a cluster, each once and at least one, and the one that
serves each slot. -/
structure SlotMap where
  nodes : List Node
  owner : Fin nslots → Option (Fin nodes.length)
  nodup : nodes.Nodup
  nonempty : nodes ≠ []

theorem SlotMap.first_node (map : SlotMap) (node : Node) :
    map.nodes[0]? = some ((map.nodes[0]?).getD node) := by
  have hHead : map.nodes[0]? = some (map.nodes.head map.nonempty) := by
    rw [← List.head?_eq_getElem?, List.head?_eq_some_head]
  rw [hHead, Option.getD_some]

/-- The primary that serves a key, if the map knows one. -/
def SlotMap.route (map : SlotMap) (key : Bytes) : Option Node :=
  (map.owner (slot key)).map map.nodes.get

theorem SlotMap.route_mem {map : SlotMap} {key : Bytes} {node : Node}
    (h : map.route key = some node) : node ∈ map.nodes := by
  obtain ⟨i, -, rfl⟩ := Option.map_eq_some_iff.mp h
  exact List.get_mem map.nodes i

/-! ## Redirects -/

/-- Whether an error says that the key is elsewhere. -/
def isRedirect (text : Bytes) : Bool :=
  (6 < text.length && (ascii "MOVED ").isPrefixOf text) ||
    (4 < text.length && (ascii "ASK ").isPrefixOf text)

/-- Whether a redirect is for the one key only, with the slot still owned as before. -/
def redirectIsAsk (text : Bytes) : Bool := 4 < text.length && (ascii "ASK ").isPrefixOf text

end ValkeyFdw
