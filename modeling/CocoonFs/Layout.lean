import CocoonFs.Checked
import CocoonFs.Codes

namespace CocoonFs.Layout

open Checked Codes List

inductive TpmiAlgHash where
  | sha1
  | sha256
  | sha384
  | sha512
  | sm3256
  | sha3256
  | sha3384
  | sha3512
  deriving DecidableEq, Repr

def TpmiAlgHash.algId : TpmiAlgHash → BitVec 16
  | .sha1 => 0x0004
  | .sha256 => 0x000b
  | .sha384 => 0x000c
  | .sha512 => 0x000d
  | .sm3256 => 0x0012
  | .sha3256 => 0x0027
  | .sha3384 => 0x0028
  | .sha3512 => 0x0029

def hashAlgDigestLen : TpmiAlgHash → Nat
  | .sha1 => 20
  | .sha256 | .sm3256 | .sha3256 => 32
  | .sha384 | .sha3384 => 48
  | .sha512 | .sha3512 => 64

inductive SymBlockCipherAlg where
  | aes128
  | aes192
  | aes256
  | camellia128
  | camellia192
  | camellia256
  | sm4128
  deriving DecidableEq, Repr

def SymBlockCipherAlg.idAndKeySize : SymBlockCipherAlg → BitVec 16 × BitVec 16
  | .aes128 => (0x0006, 128)
  | .aes192 => (0x0006, 192)
  | .aes256 => (0x0006, 256)
  | .camellia128 => (0x0026, 128)
  | .camellia192 => (0x0026, 192)
  | .camellia256 => (0x0026, 256)
  | .sm4128 => (0x0013, 128)

structure ImageLayout where
  allocationBlockSize128bLog2 : Byte
  ioBlockAllocationBlocksLog2 : Byte
  authTreeNodeIoBlocksLog2 : Byte
  authTreeDataBlockAllocationBlocksLog2 : Byte
  allocationBitmapFileBlockAllocationBlocksLog2 : Byte
  indexTreeLeafNodeAllocationBlocksLog2 : Byte
  indexTreeInternalNodeAllocationBlocksLog2 : Byte
  authTreeNodeHashAlg : TpmiAlgHash
  authTreeDataHmacHashAlg : TpmiAlgHash
  authTreeRootHmacHashAlg : TpmiAlgHash
  preauthCcaProtectionHmacHashAlg : TpmiAlgHash
  kdfHashAlg : TpmiAlgHash
  blockCipherAlg : SymBlockCipherAlg
  deriving DecidableEq, Repr

/-- An index tree node must fit a single bitmap word and a direct extent pointer,
both of which hold 64 Allocation Blocks. -/
def checkIndexTreeNode (allocationBlockSize128bLog2 indexTreeNodeAllocationBlocksLog2 : Nat) :
    Comp Unit :=
  if 64 ≤ indexTreeNodeAllocationBlocksLog2 + allocationBlockSize128bLog2 + 7 then
    formatErr .invalidImageLayoutConfig
  else if 64 < 2 ^ indexTreeNodeAllocationBlocksLog2 then formatErr .invalidImageLayoutConfig
  else .ok ()

/-- The checks on the configuration. On a 64 bit platform a size fits a memory
length whenever it fits a 64 bit integer. -/
def ImageLayout.new (l : ImageLayout) : Comp ImageLayout :=
  let allocationBlock := l.allocationBlockSize128bLog2.toNat
  let ioBlock := l.ioBlockAllocationBlocksLog2.toNat
  let dataBlock := l.authTreeDataBlockAllocationBlocksLog2.toNat
  if 64 ≤ allocationBlock + 7 then formatErr .invalidImageLayoutConfig
  else if 64 ≤ ioBlock + allocationBlock + 7 then formatErr .invalidImageLayoutConfig
  else if 64 < 2 ^ ioBlock then formatErr .invalidImageLayoutConfig
  else if 64 ≤ l.authTreeNodeIoBlocksLog2.toNat + ioBlock + allocationBlock + 7 then
    formatErr .invalidImageLayoutConfig
  else if 64 ≤ dataBlock + allocationBlock + 7 then formatErr .invalidImageLayoutConfig
  else if 64 < 2 ^ max ioBlock dataBlock then formatErr .invalidImageLayoutConfig
  else if 64 ≤ l.allocationBitmapFileBlockAllocationBlocksLog2.toNat + allocationBlock + 7 then
    formatErr .invalidImageLayoutConfig
  else do
    checkIndexTreeNode allocationBlock l.indexTreeLeafNodeAllocationBlocksLog2.toNat
    checkIndexTreeNode allocationBlock l.indexTreeInternalNodeAllocationBlocksLog2.toNat
    pure l

def marshalU16 (v : BitVec 16) : List Byte := [(v >>> 8).setWidth 8, v.setWidth 8]

def ImageLayout.encodedLen : Nat := 21

def ImageLayout.encode (l : ImageLayout) : List Byte :=
  [l.allocationBlockSize128bLog2, l.ioBlockAllocationBlocksLog2, l.authTreeNodeIoBlocksLog2,
    l.authTreeDataBlockAllocationBlocksLog2, l.allocationBitmapFileBlockAllocationBlocksLog2,
    l.indexTreeLeafNodeAllocationBlocksLog2, l.indexTreeInternalNodeAllocationBlocksLog2] ++
  marshalU16 l.authTreeNodeHashAlg.algId ++
  marshalU16 l.authTreeDataHmacHashAlg.algId ++
  marshalU16 l.authTreeRootHmacHashAlg.algId ++
  marshalU16 l.preauthCcaProtectionHmacHashAlg.algId ++
  marshalU16 l.kdfHashAlg.algId ++
  marshalU16 l.blockCipherAlg.idAndKeySize.1 ++
  marshalU16 l.blockCipherAlg.idAndKeySize.2

theorem TpmiAlgHash.algId_injective : Function.Injective TpmiAlgHash.algId := by
  intro a b h
  cases a <;> cases b <;> first | rfl | (revert h; decide)

theorem SymBlockCipherAlg.idAndKeySize_injective :
    Function.Injective SymBlockCipherAlg.idAndKeySize := by
  intro a b h
  cases a <;> cases b <;> first | rfl | (revert h; decide)

theorem marshalU16_injective : Function.Injective marshalU16 := by
  intro v w h
  simp only [marshalU16, List.cons.injEq, and_true] at h
  obtain ⟨hhi, hlo⟩ := h
  have hhiN := congrArg BitVec.toNat hhi
  have hloN := congrArg BitVec.toNat hlo
  simp only [BitVec.toNat_setWidth, BitVec.toNat_ushiftRight, Nat.shiftRight_eq_div_pow] at hhiN hloN
  apply BitVec.eq_of_toNat_eq
  omega

theorem ImageLayout.length_encode (l : ImageLayout) : l.encode.length = ImageLayout.encodedLen :=
  rfl

theorem ImageLayout.encode_injective : Function.Injective ImageLayout.encode := by
  intro l m h
  obtain ⟨h, hkeySize⟩ := append_inj' h rfl
  obtain ⟨h, hcipherId⟩ := append_inj' h rfl
  obtain ⟨h, hkdf⟩ := append_inj' h rfl
  obtain ⟨h, hpreauth⟩ := append_inj' h rfl
  obtain ⟨h, hroot⟩ := append_inj' h rfl
  obtain ⟨h, hdata⟩ := append_inj' h rfl
  obtain ⟨hsizes, hnode⟩ := append_inj' h rfl
  have halg (a b : TpmiAlgHash) (hab : marshalU16 a.algId = marshalU16 b.algId) : a = b :=
    TpmiAlgHash.algId_injective (marshalU16_injective hab)
  have hcipher : l.blockCipherAlg = m.blockCipherAlg :=
    SymBlockCipherAlg.idAndKeySize_injective
      (Prod.ext (marshalU16_injective hcipherId) (marshalU16_injective hkeySize))
  cases l
  cases m
  obtain ⟨rfl, rfl, rfl, rfl, rfl, rfl, rfl⟩ := hsizes
  obtain rfl := halg _ _ hnode
  obtain rfl := halg _ _ hdata
  obtain rfl := halg _ _ hroot
  obtain rfl := halg _ _ hpreauth
  obtain rfl := halg _ _ hkdf
  obtain rfl := hcipher
  rfl

end CocoonFs.Layout
