import Mathlib.Algebra.GroupWithZero.Nat
import MipsVm.Proofs.LedgerScan

/-! The grammar of ledgers. A ledger in good order is a row of blocks, each one free frame or one run.
The audit accepts exactly the rows of blocks and counts them; of any other ledger it reports the first
frame at which no block can be read. -/
namespace MipsVm

/-- One free frame, or the frames of one run; `tail` is the number of continuations behind its first
frame. -/
inductive Block where
  | free
  | run (tail : Nat)
  /-- A run that carries the thread-stack footer. -/
  | footer (tail : Nat)
deriving DecidableEq, Repr

namespace Block

def tail : Block → Nat
  | .free => 0
  | .run tail | .footer tail => tail

/-- Number of frames. -/
def len (b : Block) : Nat := b.tail + 1

def first : Block → Entry
  | .free => .free
  | .run tail => .start (tail + 1)
  | .footer _ => .footer

/-- The entries of the block, in order. -/
def entries (b : Block) : List Entry :=
  b.first :: (List.range b.tail).map fun k => .continuation (k + 2)

def isRun : Block → Bool
  | .free => false
  | .run _ | .footer _ => true

@[simp] theorem length_entries (b : Block) : b.entries.length = b.len := by simp [entries, len]

theorem first_ne_continuation (b : Block) (position : Nat) : b.first ≠ .continuation position := by
  cases b <;> exact nofun

theorem getElem?_entries_zero (b : Block) : b.entries[0]? = some b.first := rfl

theorem getElem?_entries_of_lt (b : Block) {k : Nat} (hpos : 0 < k) (hk : k < b.len) :
    b.entries[k]? = some (.continuation (k + 1)) := by
  obtain ⟨k, rfl⟩ := Nat.exists_eq_succ_of_ne_zero (Nat.ne_of_gt hpos)
  have hk : k < b.tail := Nat.lt_of_succ_lt_succ hk
  simp [entries, hk]

/-- Where continuations do not count, a row of blocks counts as the first entries of its blocks. -/
theorem countP_flatMap (P : Entry → Bool) (hP : ∀ position, P (.continuation position) = false)
    (blocks : List Block) :
    (blocks.flatMap entries).countP P = blocks.countP fun b => P b.first := by
  have htail (n : Nat) : ((List.range n).map fun k => Entry.continuation (k + 2)).countP P = 0 := by
    simp [List.countP_eq_zero, hP]
  induction blocks with
  | nil => rfl
  | cons b blocks ih =>
    rw [List.flatMap_cons, List.countP_append, ih, entries, List.countP_cons, htail, List.countP_cons]
    omega

end Block

/-- The totals with one more block. -/
def Census.addBlock (c : Census) (b : Block) : Census :=
  if b.isRun then c.addRun b.len else { c with free := c.free + 1 }

/-- The totals over a row of blocks. -/
def Census.ofBlocks (blocks : List Block) : Census :=
  ⟨blocks.count .free, ((blocks.filter Block.isRun).map Block.len).sum, blocks.countP Block.isRun⟩

theorem Census.ofBlocks_cons (b : Block) (blocks : List Block) :
    ofBlocks (b :: blocks) = (ofBlocks blocks).addBlock b := by
  cases b <;>
    simp [ofBlocks, addBlock, addRun, Block.isRun, List.filter_cons, List.countP_cons, Nat.add_comm]

theorem Census.foldl_addBlock (blocks : List Block) (c : Census) :
    blocks.foldl addBlock c = ⟨c.free + (ofBlocks blocks).free, c.used + (ofBlocks blocks).used,
      c.runs + (ofBlocks blocks).runs⟩ := by
  induction blocks generalizing c with
  | nil => rfl
  | cons b blocks ih =>
    rw [List.foldl_cons, ih, ofBlocks_cons]
    cases b <;> simp only [addBlock, addRun, Block.isRun, if_true, Bool.false_eq_true, if_false,
      Census.mk.injEq, true_and, and_true] <;> omega

/-- The blocks' frames are the free ones and the used ones. -/
theorem Census.free_add_used (blocks : List Block) :
    (ofBlocks blocks).free + (ofBlocks blocks).used = (blocks.flatMap Block.entries).length := by
  induction blocks with
  | nil => rfl
  | cons b blocks ih =>
    rw [List.flatMap_cons, List.length_append, b.length_entries, ← ih, ofBlocks_cons]
    cases b <;> simp only [addBlock, addRun, Block.isRun, if_true, Bool.false_eq_true, if_false,
      Block.len, Block.tail] <;> omega

namespace Ledger
variable {l : Ledger} {b : Block} {blocks : List Block} {i j : Nat}

/-- The block stands at frame `i`, and what stands behind it does not continue it. -/
structure Holds (l : Ledger) (i : Nat) (b : Block) : Prop where
  first : l.get? i = some b.first
  spans : b.isRun = true → l.Spans i b.len

/-- The blocks stand end to end from frame `i` up to frame `j`, each run with the longest chain of
continuations behind its first frame. -/
inductive Reads (l : Ledger) : Nat → List Block → Nat → Prop
  | nil (i : Nat) : l.Reads i [] i
  | cons {i j : Nat} {b : Block} {blocks : List Block} (here : l.Holds i b)
      (rest : l.Reads (i + b.len) blocks j) : l.Reads i (b :: blocks) j

/-- Why no block can be read at frame `i`. -/
inductive Fault (l : Ledger) (i : Nat) : LedgerError → Prop
  | stray {position : Nat} (entry : l.get? i = some (.continuation position)) :
    l.Fault i (.strayContinuation i)
  | truncated {declared found : Nat} (entry : l.get? i = some (.start declared))
      (spans : l.Spans i found) (short : found < declared) (atEnd : i + found = l.size) :
    l.Fault i (.truncatedRun i declared found)
  | mismatch {declared found : Nat} (entry : l.get? i = some (.start declared))
      (spans : l.Spans i found) (ne : declared ≠ found)
      (not_truncated : ¬ (found < declared ∧ i + found = l.size)) :
    l.Fault i (.lengthMismatch i declared found)

theorem Holds.lt_size (h : l.Holds i b) : i < l.size := lt_size_of_get? h.first

theorem Holds.add_le_size (h : l.Holds i b) : i + b.len ≤ l.size := by
  cases hrun : b.isRun with
  | true => exact (h.spans hrun).add_le_size h.lt_size
  | false =>
    cases b with
    | free => exact h.lt_size
    | run tail => cases hrun
    | footer tail => cases hrun

theorem Holds.chain (h : l.Holds i b) {k : Nat} (hpos : 0 < k) (hk : k < b.len) :
    l.get? (i + k) = some (.continuation (k + 1)) := by
  cases b with
  | free => simp only [Block.len, Block.tail] at hk; omega
  | run tail => exact (h.spans rfl).chain k hpos hk
  | footer tail => exact (h.spans rfl).chain k hpos hk

theorem Holds.unique {b' : Block} (h : l.Holds i b) (h' : l.Holds i b') : b = b' := by
  have hfirst : b.first = b'.first := Option.some.inj (h.first.symm.trans h'.first)
  cases b <;> cases b' <;> simp only [Block.first, reduceCtorEq, Entry.start.injEq] at hfirst
  · rfl
  · rw [Nat.succ.inj hfirst]
  · -- the footer stands in the place of the length, but the longest chain is one
    have hlen := (h.spans rfl).unique (h'.spans rfl)
    exact congrArg Block.footer (Nat.succ.inj hlen)

theorem Reads.le (h : l.Reads i blocks j) : i ≤ j := by
  induction h with
  | nil => exact Nat.le_refl _
  | cons here rest ih => omega

theorem Reads.le_size (h : l.Reads i blocks j) (hi : i ≤ l.size) : j ≤ l.size := by
  induction h with
  | nil => exact hi
  | cons here rest ih => exact ih here.add_le_size

theorem Reads.unique {blocks' : List Block} (h : l.Reads i blocks j) (h' : l.Reads i blocks' j) :
    blocks = blocks' := by
  induction h generalizing blocks' with
  | nil =>
    cases h' with
    | nil => rfl
    | cons here rest =>
      have := rest.le
      simp only [Block.len] at this
      omega
  | cons here rest ih =>
    cases h' with
    | nil =>
      have := rest.le
      simp only [Block.len] at this
      omega
    | cons here' rest' =>
      obtain rfl := here.unique here'
      rw [ih rest']

/-- Every frame of a row of blocks is in one of them. -/
theorem Reads.exists_holds (h : l.Reads i blocks j) {k : Nat} (hik : i ≤ k) (hkj : k < j) :
    ∃ s b, l.Holds s b ∧ s ≤ k ∧ k < s + b.len := by
  induction h with
  | nil => omega
  | @cons i j b blocks here rest ih =>
    by_cases hk : k < i + b.len
    · exact ⟨i, b, here, hik, hk⟩
    · exact ih (Nat.not_lt.mp hk) hkj

theorem getElem?_drop (l : Ledger) (i k : Nat) : (l.entries.toList.drop i)[k]? = l.get? (i + k) := by
  simp [get?]

theorem Holds.drop_eq (h : l.Holds i b) :
    l.entries.toList.drop i = b.entries ++ l.entries.toList.drop (i + b.len) := by
  apply List.ext_getElem?
  intro k
  rw [List.getElem?_append, b.length_entries, getElem?_drop, getElem?_drop]
  split_ifs with hk
  · rcases Nat.eq_zero_or_pos k with rfl | hpos
    · exact h.first
    · rw [b.getElem?_entries_of_lt hpos hk]
      exact h.chain hpos hk
  · congr 1
    omega

theorem Reads.drop_eq (h : l.Reads i blocks j) :
    l.entries.toList.drop i = blocks.flatMap Block.entries ++ l.entries.toList.drop j := by
  induction h with
  | nil => rfl
  | cons here rest ih => rw [here.drop_eq, ih, List.flatMap_cons, List.append_assoc]

/-- The entries in front of the frame up to which the blocks reach are the blocks' entries. -/
theorem Reads.take_eq (h : l.Reads 0 blocks j) :
    l.entries.toList.take j = blocks.flatMap Block.entries := by
  have hle := h.le_size (Nat.zero_le _)
  have hdrop := h.drop_eq
  rw [List.drop_zero] at hdrop
  have hsplit := (List.take_append_drop j l.entries.toList).trans hdrop
  exact List.append_cancel_right hsplit

/-- A row of blocks never begins with a continuation. -/
theorem head?_flatMap_ne (blocks : List Block) (position : Nat) :
    (blocks.flatMap Block.entries)[0]? ≠ some (.continuation position) := by
  cases blocks with
  | nil => exact nofun
  | cons b blocks => simpa [Block.entries] using b.first_ne_continuation position

theorem holds_of_drop_eq (h : l.entries.toList.drop i = b.entries ++ blocks.flatMap Block.entries) :
    l.Holds i b := by
  have hget (k : Nat) : l.get? (i + k) = (b.entries ++ blocks.flatMap Block.entries)[k]? := by
    rw [← getElem?_drop, h]
  have hlen := b.length_entries
  refine ⟨?_, fun _ => ⟨Nat.succ_pos _, ?_, ?_⟩⟩
  · have hfirst := hget 0
    rwa [List.getElem?_append_left (by rw [hlen]; exact Nat.succ_pos _),
      b.getElem?_entries_zero] at hfirst
  · intro k hpos hk
    rw [hget, List.getElem?_append_left (by omega)]
    exact b.getElem?_entries_of_lt hpos hk
  · -- what stands behind the block is the first entry of another one, or nothing
    rw [hget, List.getElem?_append_right (by omega), hlen, Nat.sub_self]
    exact head?_flatMap_ne blocks _

theorem reads_of_drop_eq (hi : i ≤ l.size)
    (h : l.entries.toList.drop i = blocks.flatMap Block.entries) : l.Reads i blocks l.size := by
  induction blocks generalizing i with
  | nil =>
    have hge : l.size ≤ i := by simpa using h
    rw [Nat.le_antisymm hi hge]
    exact .nil _
  | cons b blocks ih =>
    rw [List.flatMap_cons] at h
    have here := holds_of_drop_eq h
    refine .cons here (ih here.add_le_size ?_)
    rw [here.drop_eq] at h
    exact List.append_cancel_left h

theorem reads_iff (blocks : List Block) :
    l.Reads 0 blocks l.size ↔ l.entries.toList = blocks.flatMap Block.entries := by
  constructor
  · intro h
    rw [← h.take_eq, List.take_of_length_le (by simp)]
  · intro h
    exact reads_of_drop_eq (Nat.zero_le _) (by rwa [List.drop_zero])

/-- The audit passes over a block in one step. -/
theorem auditFrom_of_holds (h : l.Holds i b) (c : Census) :
    l.auditFrom i c = l.auditFrom (i + b.len) (c.addBlock b) := by
  have hlt := lt_size_of_get? h.first
  rw [auditFrom, dif_pos hlt, getElem_of_get? h.first hlt]
  cases b with
  | free => rfl
  | run tail =>
    have hlen := (h.spans rfl).runLength_eq
    simp only [Block.first, hlen, if_pos (show tail + 1 = (Block.run tail).len from rfl)]
    rfl
  | footer tail =>
    have hlen := (h.spans rfl).runLength_eq
    simp only [Block.first, hlen]
    rfl

theorem auditFrom_of_reads (h : l.Reads i blocks j) (c : Census) :
    l.auditFrom i c = l.auditFrom j (blocks.foldl Census.addBlock c) := by
  induction h generalizing c with
  | nil => rfl
  | cons here rest ih => rw [auditFrom_of_holds here, ih, List.foldl_cons]

theorem auditFrom_of_fault {e : LedgerError} (h : l.Fault i e) (c : Census) :
    l.auditFrom i c = .error e := by
  cases h with
  | stray entry =>
    have hlt := lt_size_of_get? entry
    rw [auditFrom, dif_pos hlt, getElem_of_get? entry hlt]
  | truncated entry spans short atEnd =>
    have hlt := lt_size_of_get? entry
    rw [auditFrom, dif_pos hlt, getElem_of_get? entry hlt]
    simp only [spans.runLength_eq, if_neg (Nat.ne_of_gt short), lengthError,
      if_pos (show _ ∧ _ from ⟨atEnd, short⟩)]
  | mismatch entry spans ne not_truncated =>
    have hlt := lt_size_of_get? entry
    rw [auditFrom, dif_pos hlt, getElem_of_get? entry hlt]
    simp only [spans.runLength_eq, if_neg ne, lengthError, if_neg (mt And.symm not_truncated)]

/-- At every frame of a ledger stands a block, or there is a reason why not. -/
theorem holds_or_fault (hi : i < l.size) : (∃ b, l.Holds i b) ∨ ∃ e, l.Fault i e := by
  have hspans := l.spans_runLength i
  have hget := get?_eq_getElem hi
  cases he : l.entries[i] with
  | free =>
    rw [he] at hget
    exact .inl ⟨.free, hget, nofun⟩
  | continuation position =>
    rw [he] at hget
    exact .inr ⟨_, .stray hget⟩
  | footer =>
    rw [he] at hget
    obtain ⟨tail, htail⟩ := Nat.exists_eq_succ_of_ne_zero (Nat.ne_of_gt hspans.pos)
    exact .inl ⟨.footer tail, hget, fun _ => by rwa [htail] at hspans⟩
  | start declared =>
    rw [he] at hget
    by_cases hlen : declared = l.runLength i
    · obtain ⟨tail, htail⟩ := Nat.exists_eq_succ_of_ne_zero (Nat.ne_of_gt hspans.pos)
      refine .inl ⟨.run tail, ?_, fun _ => by rwa [htail] at hspans⟩
      rw [hget, hlen, htail]
      rfl
    · by_cases hshort : l.runLength i < declared ∧ i + l.runLength i = l.size
      · exact .inr ⟨_, .truncated hget hspans hshort.1 hshort.2⟩
      · exact .inr ⟨_, .mismatch hget hspans hlen hshort⟩

/-- Block after block can be read, up to the end of the ledger or up to a fault. -/
theorem exists_reads (l : Ledger) (i : Nat) (hi : i ≤ l.size) :
    ∃ blocks j, l.Reads i blocks j ∧ (j = l.size ∨ ∃ e, l.Fault j e) := by
  induction hk : l.size - i using Nat.strongRecOn generalizing i with
  | ind k ih =>
    rcases Nat.eq_or_lt_of_le hi with rfl | hlt
    · exact ⟨[], l.size, .nil _, .inl rfl⟩
    rcases holds_or_fault hlt with ⟨b, here⟩ | hfault
    · have hpos : 0 < b.len := Nat.succ_pos _
      obtain ⟨blocks, j, rest, hend⟩ := ih _ (by omega) (i + b.len) here.add_le_size rfl
      exact ⟨b :: blocks, j, .cons here rest, hend⟩
    · exact ⟨[], i, .nil i, .inr hfault⟩

theorem auditFrom_size (l : Ledger) (c : Census) : l.auditFrom l.size c = .ok c := by
  rw [auditFrom, dif_neg (Nat.lt_irrefl _)]

theorem audit_of_reads (h : l.Reads 0 blocks l.size) : l.audit = .ok (.ofBlocks blocks) := by
  rw [audit, auditFrom_of_reads h, auditFrom_size, Census.foldl_addBlock]
  simp

theorem audit_of_fault {e : LedgerError} (h : l.Reads 0 blocks j) (hfault : l.Fault j e) :
    l.audit = .error e := by
  rw [audit, auditFrom_of_reads h, auditFrom_of_fault hfault]

theorem reads_of_audit {c : Census} (h : l.audit = .ok c) :
    ∃ blocks, l.Reads 0 blocks l.size ∧ c = .ofBlocks blocks := by
  obtain ⟨blocks, j, hreads, rfl | ⟨e, hfault⟩⟩ := l.exists_reads 0 (Nat.zero_le _)
  · have hok := audit_of_reads hreads
    exact ⟨blocks, hreads, Except.ok.inj (h.symm.trans hok)⟩
  · cases h.symm.trans (audit_of_fault hreads hfault)

theorem fault_of_audit {e : LedgerError} (h : l.audit = .error e) :
    ∃ blocks frame, l.Reads 0 blocks frame ∧ l.Fault frame e := by
  obtain ⟨blocks, j, hreads, rfl | ⟨e', hfault⟩⟩ := l.exists_reads 0 (Nat.zero_le _)
  · cases h.symm.trans (audit_of_reads hreads)
  · obtain rfl := Except.error.inj (h.symm.trans (audit_of_fault hreads hfault))
    exact ⟨blocks, j, hreads, hfault⟩

/-- The census of a ledger that passes its audit: the free entries, the runs, and every frame that
is not free as used. -/
theorem audit_counts {c : Census} (h : l.audit = .ok c) :
    c.free = l.entries.count .free ∧ c.runs = l.entries.countP Entry.opensRun ∧
      c.free + c.used = l.size := by
  obtain ⟨blocks, hreads, rfl⟩ := reads_of_audit h
  have hentries := (reads_iff blocks).mp hreads
  refine ⟨?_, ?_, ?_⟩
  · rw [← Array.count_toList, hentries, List.count_eq_countP, Block.countP_flatMap _ fun _ => rfl]
    refine List.countP_congr fun b _ => ?_
    cases b <;> simp [Block.first]
  · rw [← Array.countP_toList, hentries, Block.countP_flatMap _ fun _ => rfl]
    refine List.countP_congr fun b _ => ?_
    cases b <;> simp [Block.first, Block.isRun]
  · rw [Census.free_add_used, ← hentries, Array.length_toList]

/-- The audit of a ledger in terms of blocks: it accepts the rows of blocks and no other ledger, and an
error names the frame behind the blocks that can be read, with what stands there. -/
structure ReadsBlocks (l : Ledger) : Prop where
  ok_iff : ∀ c, l.audit = .ok c ↔ ∃ blocks : List Block,
    l.entries.toList = blocks.flatMap Block.entries ∧ c = .ofBlocks blocks
  blocks_unique : ∀ blocks blocks' : List Block,
    l.entries.toList = blocks.flatMap Block.entries →
      l.entries.toList = blocks'.flatMap Block.entries → blocks = blocks'
  census : ∀ c, l.audit = .ok c → c.free = l.entries.count .free ∧ c.free + c.used = l.size
  error_iff : ∀ e, l.audit = .error e ↔ ∃ blocks frame, l.Reads 0 blocks frame ∧
    l.entries.toList.take frame = blocks.flatMap Block.entries ∧ l.Fault frame e

/-- Whatever the entries of a ledger are, its audit reads them as blocks. -/
theorem audit_readsBlocks (l : Ledger) : l.ReadsBlocks := by
  constructor
  case ok_iff =>
    intro c
    constructor
    · intro h
      obtain ⟨blocks, hreads, hc⟩ := reads_of_audit h
      exact ⟨blocks, (reads_iff blocks).mp hreads, hc⟩
    · rintro ⟨blocks, hentries, rfl⟩
      exact audit_of_reads ((reads_iff blocks).mpr hentries)
  case blocks_unique =>
    intro blocks blocks' h h'
    exact ((reads_iff blocks).mpr h).unique ((reads_iff blocks').mpr h')
  case census =>
    intro c h
    obtain ⟨hfree, -, hsum⟩ := audit_counts h
    exact ⟨hfree, hsum⟩
  case error_iff =>
    intro e
    constructor
    · intro h
      obtain ⟨blocks, frame, hreads, hfault⟩ := fault_of_audit h
      exact ⟨blocks, frame, hreads, hreads.take_eq, hfault⟩
    · rintro ⟨blocks, frame, hreads, -, hfault⟩
      exact audit_of_fault hreads hfault

-- a run that breaks off counts as truncated at the end of the ledger only
example : (⟨#[.free, .start 4, .continuation 2]⟩ : Ledger).audit = .error (.truncatedRun 1 4 2) := by
  decide +kernel

example : (⟨#[.start 3, .continuation 2, .continuation 7, .free]⟩ : Ledger).audit =
    .error (.lengthMismatch 0 3 2) := by
  decide +kernel

end Ledger
end MipsVm
