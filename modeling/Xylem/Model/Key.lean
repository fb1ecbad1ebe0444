import Xylem.Model.Module
import Xylem.Lib.Hex

/-!
# The bytes of a module key

`mod_hd` compares its keys as bytes. `ModKey` stands for one; what the library
writes for it, and over which length, is here.
-/
namespace Xylem

/-- A NUL-terminated string, without its NUL. -/
structure CString where
  bytes : List UInt8
  nulFree : 0 ∉ bytes
  deriving DecidableEq

namespace Key

def modKeySuffixLen : Nat := 17

def strlen (data : List UInt8) : Nat := (data.takeWhile (· ≠ 0)).length

/-- `snprintf`: as much of the text as leaves room for the NUL, which it writes too. -/
def snprintf (buf text : List UInt8) : List UInt8 :=
  if buf.length = 0 then buf
  else
    let written := text.take (buf.length - 1)
    written ++ 0 :: buf.drop (written.length + 1)

def modKey (buf : List UInt8) (path : CString) (regionId : RegionId) : List UInt8 :=
  snprintf buf (path.bytes ++ 0 :: Hex.pad 16 regionId.toNat)

def modKeyLen (path : CString) : Nat := strlen (path.bytes ++ [0]) + modKeySuffixLen

def modKeyMeasure (data : List UInt8) : Nat := strlen data + modKeySuffixLen

/-- What the map hashes and compares of a key that `mod_key` wrote into a fresh
buffer of `mod_key_len` bytes. -/
def blob (path : CString) (buf : Vector UInt8 (modKeyLen path)) (regionId : RegionId) : List UInt8 :=
  let data := modKey buf.toList path regionId
  data.take (modKeyMeasure data)

abbrev Table := AList fun _ : List UInt8 => EntryPtr

/-- What `module_rekey_loaded_entry` does to the map: put under the new key, then
delete the old one. -/
def Table.rekey (t : Table) (me : EntryPtr) (newKey oldKey : List UInt8) : Table :=
  (t.insert newKey me).erase oldKey

/-- The map finds `me` with `key`, and with no other key. -/
def Table.Under (t : Table) (me : EntryPtr) (key : List UInt8) : Prop :=
  ∀ k, t.lookup k = some me ↔ k = key

end Key
end Xylem
