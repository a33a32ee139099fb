import NorFlash.Chip.Basic

namespace NorFlash.Chip

def kib : Nat := 1024
def mib : Nat := 1024 * 1024

/-- Sectors of 4 KiB, blocks of 32 and 64 KiB, and two instructions for the whole chip. -/
def uniformRegions (size : Nat) : List Region :=
  [⟨0, 4 * kib, size / (4 * kib), .erase20⟩, ⟨0, 32 * kib, size / (32 * kib), .erase52⟩,
    ⟨0, 64 * kib, size / (64 * kib), .eraseD8⟩, ⟨0, size, 1, .erase60⟩, ⟨0, size, 1, .eraseC7⟩]

def w25q64w : Chip where
  id := "w25q64w"
  vendor := "Winbond"
  name := "W25Q64.W"
  manufacturer := 0xEF
  model := 0x6017
  size := 8 * mib
  pageSize := 256
  features := ⟨true, false, true, true⟩
  voltageMin := 1700
  voltageMax := 1950
  probe := .rdid
  regions := uniformRegions (8 * mib)

def mx25u12835f : Chip where
  id := "mx25u12835f"
  vendor := "Macronix"
  name := "MX25U6435E/F"
  manufacturer := 0xC2
  model := 0x2537
  size := 8 * mib
  pageSize := 256
  features := ⟨true, false, true, true⟩
  voltageMin := 1650
  voltageMax := 2000
  probe := .rdid
  regions := uniformRegions (8 * mib)

def w25q128fv : Chip where
  id := "w25q128fv"
  vendor := "Winbond"
  name := "W25Q128.V"
  manufacturer := 0xEF
  model := 0x4018
  size := 16 * mib
  pageSize := 256
  features := ⟨true, false, true, true⟩
  voltageMin := 2700
  voltageMax := 3600
  probe := .rdid
  regions := uniformRegions (16 * mib)

def at25fs010 : Chip where
  id := "at25fs010"
  vendor := "Atmel"
  name := "AT25FS010"
  manufacturer := 0x1F
  model := 0x6601
  size := 128 * kib
  pageSize := 256
  features := ⟨true, false, false, false⟩
  voltageMin := 2700
  voltageMax := 3600
  probe := .rdid
  regions :=
    [⟨0, 4 * kib, 32, .erase20⟩, ⟨0, 4 * kib, 32, .eraseD7⟩, ⟨0, 32 * kib, 4, .erase52⟩,
      ⟨0, 64 * kib, 2, .eraseD8⟩, ⟨0, 128 * kib, 1, .erase60⟩, ⟨0, 128 * kib, 1, .eraseC7⟩]

def m25p40Old : Chip where
  id := "m25p40-old"
  vendor := "ST"
  name := "M25P40-old"
  manufacturer := 0x20
  model := 0x12
  size := 512 * kib
  pageSize := 256
  features := ⟨true, false, false, false⟩
  voltageMin := 2700
  voltageMax := 3600
  probe := .res1
  regions := [⟨0, 64 * kib, 8, .eraseD8⟩, ⟨0, 512 * kib, 1, .eraseC7⟩]

def catalog : List Chip := [w25q64w, mx25u12835f, w25q128fv, at25fs010, m25p40Old]

/-- Whether `name` is the chip's short name or its model name. -/
def isNamed (c : Chip) (name : String) : Bool := c.id == name || c.name == name

end NorFlash.Chip
