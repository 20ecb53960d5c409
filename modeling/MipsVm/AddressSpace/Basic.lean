import MipsVm.AddressMap
import MipsVm.AddressSpace.Permissions
import MipsVm.Log

/-! The user address space of a process: at most two program regions and a stack of fixed place and
size. Each is one run of pages and, once it has frames, one run of frames, so a translation is a
subtraction and an addition. -/
namespace MipsVm

/-- The parts of an address space. -/
inductive Segment where
  /-- The first program region; its pages are clean once the program is loaded. -/
  | text
  /-- The second program region. -/
  | data
  | stack
deriving DecidableEq, Repr

namespace Segment

/-- All segments, in the order in which frames are bound and addresses looked up. -/
def all : List Segment := [.text, .data, .stack]

def index : Segment → Nat
  | .text => 0
  | .data => 1
  | .stack => 2

def ofIndex? (i : Nat) : Option Segment := all[i]?

def name : Segment → String
  | .text => "Text"
  | .data => "Data"
  | .stack => "Stack"

end Segment

/-- A run of pages, and the run of frames behind it once it has one. -/
structure Region where
  vbase : VAddr
  npages : Nat
  pbase : Option PAddr
  fits : vbase.val + npages * pageSize < 0x100000000
deriving DecidableEq

namespace Region

/-- One past the last address of the region. -/
def vend (r : Region) : VAddr := ⟨r.vbase.val + r.npages * pageSize, r.fits⟩

/-- Whether two regions share an address. -/
def overlaps (a b : Region) : Bool := a.vbase < b.vend && b.vbase < a.vend

def isBound (r : Region) : Bool := r.pbase.isSome

def bind (r : Region) (pa : PAddr) : Region := { r with pbase := some pa }

def unbind (r : Region) : Region := { r with pbase := none }

/-- The pages that hold the `size` bytes from `va` on, if they end below the last page. -/
def covering? (va : VAddr) (size : Nat) : Option Region :=
  if size + va.pageOffset < 0x100000000 then
    if h : va.alignDown.val + pagesFor (size + va.pageOffset) * pageSize < 0x100000000 then
      some ⟨va.alignDown, pagesFor (size + va.pageOffset), none, h⟩
    else none
  else none

/-- The byte of RAM behind `va`, if `va` is in the region and the region has frames. The sum is
formed for every `va` from the region's start on, inside or not, and halts where it leaves 32 bits. -/
def translate (r : Region) (va : VAddr) : Except Halt (Option PAddr) :=
  match r.pbase, va.offsetFrom? r.vbase with
  | some pbase, some offset => do
    let pa ← pbase.add offset
    return if offset / pageSize < r.npages then some pa else none
  | _, _ => .ok none

end Region

/-- Where a user address leads. -/
structure Translation where
  segment : Segment
  pa : PAddr
deriving DecidableEq

structure AddressSpace where
  text : Option Region
  data : Option Region
  /-- First frame of the stack, once it has frames. -/
  stackBase : Option PAddr
  /-- Whether the program is loaded. -/
  loaded : Bool
deriving DecidableEq

/-- Why a region was not declared. -/
inductive DefineRefusal where
  /-- Its pages do not end below the last page of the space. -/
  | wraps
  | reachesStack (region : Region)
  | overlaps (region : Region)
  | slotsTaken
deriving DecidableEq

namespace DefineRefusal

/-- The error answered to a request for a region at `va`. -/
def error (va : VAddr) : DefineRefusal → VmError
  | .wraps | .reachesStack _ | .overlaps _ => .invalidRange va
  | .slotsTaken => .tooManyRegions

/-- What is written to the log about it. -/
def records (va : VAddr) : DefineRefusal → List Record
  | .wraps => []
  | .reachesStack r =>
    [⟨.warn, s!"as: region {r.vbase}..{r.vend} reaches into the stack or kernel space"⟩]
  | .overlaps r =>
    [⟨.warn, s!"as: region {r.vbase}..{r.vend} overlaps an existing region"⟩]
  | .slotsTaken =>
    [⟨.warn, s!"as: ignoring region at {va}: only {maxProgramRegions} regions supported"⟩]

end DefineRefusal

namespace AddressSpace

/-- No regions and no frames. -/
def empty : AddressSpace := ⟨none, none, none, false⟩

/-- The stack, which every address space has. -/
def stack (a : AddressSpace) : Region := ⟨userStackBase, userStackPages, a.stackBase, by decide⟩

/-- The region of a segment, if it is declared. -/
def region? (a : AddressSpace) : Segment → Option Region
  | .text => a.text
  | .data => a.data
  | .stack => some a.stack

/-- The program region in slot `i`, if there is one. -/
def programRegion? (a : AddressSpace) (i : Nat) : Option Region :=
  match i with
  | 0 => a.text
  | 1 => a.data
  | _ => none

def setRegion (a : AddressSpace) (r : Region) : Segment → AddressSpace
  | .text => { a with text := some r }
  | .data => { a with data := some r }
  | .stack => { a with stackBase := r.pbase }

/-- The first program slot that holds no region. -/
def freeSlot? (a : AddressSpace) : Option Segment :=
  if a.text.isNone then some .text else if a.data.isNone then some .data else none

/-- Whether `r` shares an address with a declared program region. -/
def overlapsProgram (a : AddressSpace) (r : Region) : Bool :=
  a.text.any r.overlaps || a.data.any r.overlaps

/-- The slot and the pages for a region of `size` bytes at `va`. -/
def placement (a : AddressSpace) (va : VAddr) (size : Nat) :
    Except DefineRefusal (Segment × Region) :=
  match Region.covering? va size with
  | none => .error .wraps
  | some r =>
    if userStackBase < r.vend then .error (.reachesStack r)
    else if a.overlapsProgram r then .error (.overlaps r)
    else
      match a.freeSlot? with
      | none => .error .slotsTaken
      | some slot => .ok (slot, r)

/-- Declares a region of `size` bytes at `va`, widened to whole pages. -/
def define (a : AddressSpace) (va : VAddr) (size : Nat) : Except VmError AddressSpace :=
  match a.placement va size with
  | .ok (slot, r) => .ok (a.setRegion r slot)
  | .error refusal => .error (refusal.error va)

/-- What `define` writes to the log. -/
def defineRecords (a : AddressSpace) (va : VAddr) (size : Nat) (perms : Permissions) :
    List Record :=
  match a.placement va size with
  | .ok (slot, r) =>
    [⟨.debug, s!"as: region {slot.index} at {r.vbase}, {r.npages} pages ({perms.text})"⟩]
  | .error refusal => refusal.records va

/-- Gives frames to a declared segment. -/
def bind (a : AddressSpace) (segment : Segment) (pa : PAddr) : AddressSpace :=
  match a.region? segment with
  | some r => a.setRegion (r.bind pa) segment
  | none => a

/-- First frames of the bound segments, in order. -/
def boundFrames (a : AddressSpace) : List PAddr :=
  Segment.all.filterMap fun segment => (a.region? segment).bind Region.pbase

def hasFrames (a : AddressSpace) : Bool :=
  a.stackBase.isSome || a.text.any Region.isBound || a.data.any Region.isBound

/-- The same regions without frames, not loaded. -/
def layout (a : AddressSpace) : AddressSpace :=
  ⟨a.text.map Region.unbind, a.data.map Region.unbind, none, false⟩

/-- The first of `segments` that translates `va`. -/
def translateIn (a : AddressSpace) (va : VAddr) : List Segment → Except Halt (Option Translation)
  | [] => .ok none
  | segment :: rest =>
    match a.region? segment with
    | none => a.translateIn va rest
    | some r => do
      match ← r.translate va with
      | some pa => return some ⟨segment, pa⟩
      | none => a.translateIn va rest

/-- The segment of `va` and the byte of RAM behind it. -/
def translate (a : AddressSpace) (va : VAddr) : Except Halt (Option Translation) :=
  a.translateIn va Segment.all

/-- Start of the RAM behind the `len` user bytes from `va` on, if they lie in one segment. -/
def span (a : AddressSpace) (va : VAddr) (len : Nat) : Except Halt (Except VmError PAddr) := do
  match ← a.translate va with
  | none => return .error (.unmapped va)
  | some first =>
    match va.add? (len - 1) with
    | none => return .error (.invalidRange va)
    | some lastAddr =>
      match ← a.translate lastAddr with
      | none => return .error (.invalidRange va)
      | some last =>
        return if last.segment = first.segment then .ok first.pa else .error (.invalidRange va)

/-- The first stack pointer of a program; the stack must have its frames by then. -/
def initialStack (a : AddressSpace) : Except Halt VAddr :=
  if a.stackBase.isSome then .ok userStackTop else .error .stackUnbound

end AddressSpace
end MipsVm
