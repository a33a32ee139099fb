namespace NorFlash.Opcode

/-- Sets the write enable latch. -/
def writeEnable : UInt8 := 0x06
/-- Clears the write enable latch. -/
def writeDisable : UInt8 := 0x04
/-- Reads the status register. -/
def readStatus : UInt8 := 0x05
/-- Reads manufacturer and device identification. -/
def readId : UInt8 := 0x9F
/-- Reads manufacturer and device, one byte each. -/
def readManufacturer : UInt8 := 0x90
/-- Reads the electronic signature. -/
def readSignature : UInt8 := 0xAB
/-- Reads data. -/
def readData : UInt8 := 0x03
/-- Programs bytes of one page. -/
def pageProgram : UInt8 := 0x02

/-- First identification byte of manufacturers outside the first bank; the next byte is theirs. -/
def continuation : UInt8 := 0x7F

/-- Status bit: a program or erase is running. -/
def busyBit : UInt8 := 0x01
/-- Status bit: the write enable latch is set. -/
def latchBit : UInt8 := 0x02

end NorFlash.Opcode
