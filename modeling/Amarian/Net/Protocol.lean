import Amarian.Primitives.Codec

/-
  The payloads of the messages that the modelled handlers
  read and write.

  Key definitions include:
    * `HelloPayload`
    * `GetHeadersPayload`
    * `HeadersPayload`
    * `GetDataPayload`
    * `AddrPayload`
    * `PingPayload`

  Key theorems include:
    * `GetHeadersPayload.decodeWhole_serialize`
    * `HeadersPayload.deserialize_canonical`
    * `GetDataPayload.deserialize_canonical`
    * `AddrPayload.deserialize_canonical`
-/

------------------------------------------------------------
-- Hello
------------------------------------------------------------

namespace Amarian

namespace Net

open Codec

def nodeHistorical : UInt64 := 1

def nodeRelay : UInt64 := 2

/- The first message on a connection. -/
structure HelloPayload where
  protocolVersion : UInt32
  services : UInt64
  timestamp : Int64
  chainId : Hash256
  bestHeight : UInt32
  nonce : UInt64
  userAgent : ByteVec
deriving DecidableEq

namespace HelloPayload

def serialize
    (hello : HelloPayload) : ByteVec :=
  writeU32 hello.protocolVersion ++
    writeU64 hello.services ++
    writeI64 hello.timestamp ++
    writeHash256 hello.chainId ++
    writeU32 hello.bestHeight ++
    writeU64 hello.nonce ++
    writeByteString hello.userAgent

def deserialize
    (maxUserAgentLen : Nat) :
    Decoder UInt8 HelloPayload := do
  let protocolVersion ← readU32
  let services ← readU64
  let timestamp ← readI64
  let chainId ← readHash256
  let bestHeight ← readU32
  let nonce ← readU64
  let userAgent ← readByteString maxUserAgentLen
  pure
    { protocolVersion := protocolVersion
      services := services
      timestamp := timestamp
      chainId := chainId
      bestHeight := bestHeight
      nonce := nonce
      userAgent := userAgent }

end HelloPayload

------------------------------------------------------------
-- GetHeaders And Headers
------------------------------------------------------------

/- The locator, and where to stop. -/
structure GetHeadersPayload where
  protocolVersion : UInt32
  locator : List Hash256
  stopHash : Hash256

namespace GetHeadersPayload

def serialize
    (request : GetHeadersPayload) : ByteVec :=
  writeU32 request.protocolVersion ++
    writeList writeHash256 request.locator ++
    writeHash256 request.stopHash

def deserialize
    (maxItems : Nat) : Decoder UInt8 GetHeadersPayload := do
  let protocolVersion ← readU32
  let locator ← readList readHash256 maxItems 32
  let stopHash ← readHash256
  pure
    { protocolVersion := protocolVersion
      locator := locator
      stopHash := stopHash }

theorem deserialize_canonical
    (maxItems : Nat) :
    Canonical serialize (deserialize maxItems)
      fun request =>
        Sized maxItems request.locator.length := by
  have hFields :
      Canonical
        (fun request : GetHeadersPayload =>
          writeU32 request.protocolVersion ++
            (writeList writeHash256 request.locator ++
              (writeHash256 request.stopHash ++ [])))
        (deserialize maxItems)
        fun request =>
          Sized maxItems request.locator.length := by
    apply Canonical.step protocolVersion
      readU32_canonical fun _ _ => trivial
    intro version _
    apply Canonical.step locator
      (readList_canonical readHash256_canonical
        (Nat.zero_lt_succ 31)
        (fun hash => Nat.le_of_eq hash.size_eq.symm) maxItems)
      fun _ hWhole => ⟨hWhole.1, fun _ _ => trivial⟩
    intro hashes hHashes
    apply Canonical.step stopHash
      readHash256_canonical fun _ _ => trivial
    intro stop _
    apply Canonical.done ⟨⟨⟨hHashes.1, rfl⟩, rfl⟩, rfl⟩
    rintro request ⟨⟨⟨-, rfl⟩, rfl⟩, rfl⟩
    rfl
  apply Canonical.congr (fun _ => Iff.rfl) _ hFields
  intro request _
  rw [serialize, List.append_nil, List.append_assoc]

theorem decodeWhole_serialize
    {maxItems : Nat}
    {request : GetHeadersPayload}
    (hSized : Sized maxItems request.locator.length) :
    decodeWhole (deserialize maxItems) request.serialize =
      some request :=
  decodeWhole_write (deserialize_canonical maxItems) hSized

end GetHeadersPayload

/- Headers in chain order. -/
structure HeadersPayload where
  headers : List BlockHeader

namespace HeadersPayload

/- The most headers in one message. -/
def maxCount : Nat := 2000

def serialize
    (payload : HeadersPayload) : ByteVec :=
  writeList BlockHeader.serialize payload.headers

def deserialize : Decoder UInt8 HeadersPayload := do
  let headers ← readList BlockHeader.deserialize maxCount
    BlockHeader.serializedSize
  pure { headers := headers }

theorem deserialize_canonical :
    Canonical serialize deserialize
      fun payload => Sized maxCount payload.headers.length :=
  (readList_canonical BlockHeader.deserialize_canonical
    (by decide)
    (fun header => Nat.le_of_eq header.length_serialize.symm)
    maxCount).map
    (fun _ hWhole => ⟨hWhole.1, rfl⟩)
    fun _ hSized => ⟨⟨hSized, fun _ _ => trivial⟩, rfl⟩

end HeadersPayload

------------------------------------------------------------
-- Inv And GetData
------------------------------------------------------------

/-
  Any number can be cast to the type, and is written back as
  it was.
-/
structure InventoryType where
  raw : UInt32
deriving DecidableEq

namespace InventoryType

def error : InventoryType := ⟨0⟩

def transaction : InventoryType := ⟨1⟩

def block : InventoryType := ⟨2⟩

end InventoryType

/- One announced item. -/
structure Inventory where
  type : InventoryType
  hash : Hash256
deriving DecidableEq

namespace Inventory

/- The type and the hash. -/
def serializedSize : Nat := 36

def serialize
    (item : Inventory) : ByteVec :=
  writeU32 item.type.raw ++ writeHash256 item.hash

def deserialize : Decoder UInt8 Inventory := do
  let raw ← readU32
  let hash ← readHash256
  pure { type := ⟨raw⟩, hash := hash }

theorem deserialize_canonical :
    Canonical serialize deserialize fun _ => True := by
  have hFields :=
    Canonical.pair (fun raw hash => Inventory.mk ⟨raw⟩ hash)
      (fun item => item.type.raw) Inventory.hash
      (fun _ => rfl) (fun _ _ => rfl) (fun _ _ => rfl)
      readU32_canonical readHash256_canonical
  apply Canonical.congr _ (fun _ _ => rfl) hFields
  exact fun _ => (and_self_iff ..).symm

theorem length_serialize
    (item : Inventory) :
    item.serialize.length = serializedSize := by
  simp [serialize, writeU32, writeHash256, Bytes32.size_eq,
    serializedSize]

end Inventory

/- Also the payload of an announcement. -/
structure GetDataPayload where
  items : List Inventory

/- Both payloads have one layout. -/
abbrev InvPayload : Type :=
  GetDataPayload

namespace GetDataPayload

def serialize
    (payload : GetDataPayload) : ByteVec :=
  writeList Inventory.serialize payload.items

def deserialize
    (maxItems : Nat) : Decoder UInt8 GetDataPayload := do
  let items ← readList Inventory.deserialize maxItems
    Inventory.serializedSize
  pure { items := items }

theorem deserialize_canonical
    (maxItems : Nat) :
    Canonical serialize (deserialize maxItems)
      fun payload => Sized maxItems payload.items.length :=
  (readList_canonical Inventory.deserialize_canonical
    (by decide)
    (fun item => Nat.le_of_eq item.length_serialize.symm)
    maxItems).map
    (fun _ hWhole => ⟨hWhole.1, rfl⟩)
    fun _ hSized => ⟨⟨hSized, fun _ _ => trivial⟩, rfl⟩

end GetDataPayload

------------------------------------------------------------
-- Addresses
------------------------------------------------------------

structure NetworkAddress where
  addrVer : UInt8
  address : ByteVec
  port : UInt16
deriving DecidableEq

namespace NetworkAddress

/- A version, sixteen bytes and a port. -/
def serializedSize : Nat := 19

def serialize
    (address : NetworkAddress) : ByteVec :=
  writeU8 address.addrVer ++
    address.address ++
    writeU16 address.port

def deserialize : Decoder UInt8 NetworkAddress := do
  let addrVer ← readU8
  let address ← Decoder.consume 16
  let port ← readU16
  pure
    { addrVer := addrVer, address := address, port := port }

def Fits
    (address : NetworkAddress) : Prop :=
  address.address.length = 16

theorem deserialize_canonical :
    Canonical serialize deserialize Fits := by
  have hFields :
      Canonical
        (fun address : NetworkAddress =>
          writeU8 address.addrVer ++
            (address.address ++
              (writeU16 address.port ++ [])))
        deserialize Fits := by
    apply Canonical.step addrVer readU8_canonical
      fun _ _ => trivial
    intro version _
    apply Canonical.step address (Canonical.consume 16)
      fun _ hWhole => hWhole.1
    intro bytes hBytes
    apply Canonical.step port readU16_canonical
      fun _ _ => trivial
    intro port _
    apply Canonical.done ⟨⟨⟨hBytes, rfl⟩, rfl⟩, rfl⟩
    rintro address ⟨⟨⟨-, rfl⟩, rfl⟩, rfl⟩
    rfl
  apply Canonical.congr (fun _ => Iff.rfl) _ hFields
  intro address _
  rw [serialize, List.append_nil, List.append_assoc]

theorem length_serialize
    {address : NetworkAddress}
    (hFits : address.Fits) :
    address.serialize.length = serializedSize := by
  unfold Fits at hFits
  simp [serialize, writeU8, writeU16, hFits, serializedSize]

end NetworkAddress

structure AddrPayload where
  addresses : List NetworkAddress

namespace AddrPayload

def serialize
    (payload : AddrPayload) : ByteVec :=
  writeList NetworkAddress.serialize payload.addresses

def deserialize
    (maxItems : Nat) : Decoder UInt8 AddrPayload := do
  let addresses ←
    readList NetworkAddress.deserialize maxItems 19
  pure { addresses := addresses }

theorem deserialize_canonical
    (maxItems : Nat) :
    Canonical serialize (deserialize maxItems)
      fun payload =>
        Sized maxItems payload.addresses.length ∧
          ∀ address ∈ payload.addresses, address.Fits :=
  (readList_canonical_of_valid
    NetworkAddress.deserialize_canonical (by decide)
    (fun _ hFits => Nat.le_of_eq
      (NetworkAddress.length_serialize hFits).symm)
    maxItems).map
    (fun _ hWhole => ⟨hWhole, rfl⟩)
    fun _ hFits => ⟨hFits, rfl⟩

end AddrPayload

------------------------------------------------------------
-- Messages Of One Value Or None
------------------------------------------------------------

/- The payload of a pong as well. -/
structure PingPayload where
  nonce : UInt64

namespace PingPayload

def serialize
    (ping : PingPayload) : ByteVec :=
  writeU64 ping.nonce

def deserialize : Decoder UInt8 PingPayload := do
  let nonce ← readU64
  pure { nonce := nonce }

theorem deserialize_canonical :
    Canonical serialize deserialize fun _ => True :=
  readU64_canonical.map (fun _ _ => ⟨trivial, rfl⟩)
    fun _ _ => ⟨trivial, rfl⟩

end PingPayload

/- A request for addresses says nothing else. -/
def deserializeGetAddr : Decoder UInt8 Unit :=
  pure ()

end Net

end Amarian
