import MipsVm.BitField

/-! Access rights that a program asks for with a region. They are recorded and never enforced. -/
namespace MipsVm

structure Permissions where
  bits : BitVec 8
deriving DecidableEq

namespace Permissions

def readField : BitField := ⟨0, 1⟩
def writeField : BitField := ⟨1, 1⟩
def executeField : BitField := ⟨2, 1⟩

def read (p : Permissions) : Bool := readField.flag p.bits
def write (p : Permissions) : Bool := writeField.flag p.bits
def execute (p : Permissions) : Bool := executeField.flag p.bits

def setRead (p : Permissions) (value : Bool) : Permissions := ⟨readField.setFlag p.bits value⟩
def setWrite (p : Permissions) (value : Bool) : Permissions := ⟨writeField.setFlag p.bits value⟩
def setExecute (p : Permissions) (value : Bool) : Permissions := ⟨executeField.setFlag p.bits value⟩

def text (p : Permissions) : String := s!"r={p.read} w={p.write} x={p.execute}"

end Permissions
end MipsVm
