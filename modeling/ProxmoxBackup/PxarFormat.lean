import ProxmoxBackup.LittleEndian

/-! Record types of a pxar archive and the header every record opens with. -/

namespace ProxmoxBackup.PxarFormat

def PXAR_PAYLOAD : Nat := 0x28147a1b0b7c1a25
def PXAR_PAYLOAD_START_MARKER : Nat := 0x834c68c2194a4ed2
def PXAR_PAYLOAD_TAIL_MARKER : Nat := 0x6c72b78b984c81b5

def header (hdr len : Nat) : List UInt8 :=
  LittleEndian.encode 8 hdr ++ LittleEndian.encode 8 len

@[simp] theorem header_length (hdr len : Nat) : (header hdr len).length = 16 := by
  simp [header]

end ProxmoxBackup.PxarFormat
