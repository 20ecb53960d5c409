import MipsVm.Machine

/-! Changes of RAM: when a write reaches RAM at all, which bytes it leaves alone, and that RAM goes on
holding the entries of the ledger when the pool changes them. -/
namespace MipsVm

/-- Frames in a row, by the address of the first. -/
structure FrameRange where
  start : Nat
  frames : Nat
deriving DecidableEq, Repr

namespace FrameRange
variable {r t : FrameRange} {i : Nat}

def stop (r : FrameRange) : Nat := r.start + r.frames * pageSize

def Apart (r t : FrameRange) : Prop := r.stop ≤ t.start ∨ t.stop ≤ r.start

def Covers (r : FrameRange) (i : Nat) : Prop := r.start ≤ i ∧ i < r.stop

theorem Apart.symm (h : r.Apart t) : t.Apart r := h.elim .inr .inl

theorem Apart.not_covers (h : r.Apart t) (hr : r.Covers i) : ¬ t.Covers i := by
  simp only [Apart, Covers] at *
  omega

end FrameRange

namespace Ram
variable {r ram ram' : Ram} {pa : PAddr} {start len : Nat}

theorem byte_of_le {i : Nat} (h : r.size ≤ i) : r.byte i = 0 := by
  have hpage : r.pages.size ≤ i / pageSize := (Nat.le_div_iff_mul_le (by decide)).mpr h
  rw [byte, Array.getElem?_eq_none hpage]

theorem reach_of_lt (h : pa.val < r.size) : r.reach pa = .ok () := if_pos h

theorem reach_of_le (h : r.size ≤ pa.val) : r.reach pa = .error (.outsideRam pa) :=
  if_neg (Nat.not_lt.mpr h)

theorem write_of_lt (h : pa.val < r.size) (bytes : Array UInt8) :
    r.write pa bytes = .ok (r.update pa.val bytes.size fun i => bytes.getD i 0) := by
  rw [write, reach_of_lt h]
  rfl

theorem write_of_le (h : r.size ≤ pa.val) (bytes : Array UInt8) :
    r.write pa bytes = .error (.outsideRam pa) := by
  rw [write, reach_of_le h]
  rfl

theorem zero_of_lt (h : pa.val < r.size) (len : Nat) :
    r.zero pa len = .ok (r.update pa.val len fun _ => 0) := by
  rw [zero_eq, reach_of_lt h]
  rfl

theorem zero_of_le (h : r.size ≤ pa.val) (len : Nat) :
    r.zero pa len = .error (.outsideRam pa) := by
  rw [zero_eq, reach_of_le h]
  rfl

/-- Nothing but the `len` bytes from `start` on may have changed. -/
structure ChangesAt (start len : Nat) (ram ram' : Ram) : Prop where
  size : ram'.size = ram.size
  byte : ∀ i, ¬ (start ≤ i ∧ i < start + len) → ram'.byte i = ram.byte i

theorem ChangesAt.refl (start len : Nat) (ram : Ram) : ram.ChangesAt start len ram :=
  ⟨rfl, fun _ _ => rfl⟩

theorem changesAt_update (ram : Ram) (start len : Nat) (f : Nat → UInt8) :
    ram.ChangesAt start len (ram.update start len f) := by
  refine ⟨size_update .., ?_⟩
  intro i hi
  rw [byte_update, if_neg]
  rintro ⟨hge, hlt, -⟩
  exact hi ⟨hge, hlt⟩

theorem changesAt_write {bytes : Array UInt8} (h : ram.write pa bytes = .ok ram') :
    ram.ChangesAt pa.val bytes.size ram' := by
  rcases Nat.lt_or_ge pa.val ram.size with hin | hout
  · rw [write_of_lt hin] at h
    obtain rfl := Except.ok.inj h
    exact changesAt_update ..
  · rw [write_of_le hout] at h
    cases h

section frames
variable {t : FrameRange} {ts us : List FrameRange}

/-- Nothing but bytes of `t` may have changed. -/
structure WritesIn (t : FrameRange) (ram ram' : Ram) : Prop where
  size : ram'.size = ram.size
  byte : ∀ i, ¬ t.Covers i → ram'.byte i = ram.byte i

theorem WritesIn.refl (t : FrameRange) (ram : Ram) : ram.WritesIn t ram := ⟨rfl, fun _ _ => rfl⟩

theorem ChangesAt.writesIn (h : ram.ChangesAt start len ram') (hstart : t.start ≤ start)
    (hstop : start + len ≤ t.stop) : ram.WritesIn t ram' := by
  refine ⟨h.size, ?_⟩
  intro i hi
  apply h.byte
  rintro ⟨hge, hlt⟩
  exact hi ⟨Nat.le_trans hstart hge, Nat.lt_of_lt_of_le hlt hstop⟩

theorem writesIn_update (hstart : t.start ≤ start) (hstop : start + len ≤ t.stop)
    (f : Nat → UInt8) : ram.WritesIn t (ram.update start len f) :=
  (ram.changesAt_update start len f).writesIn hstart hstop

/-- Nothing but bytes of the frames `ts` may have changed. -/
structure WritesTo (ts : List FrameRange) (ram ram' : Ram) : Prop where
  size : ram'.size = ram.size
  byte : ∀ i, (∀ t ∈ ts, ¬ t.Covers i) → ram'.byte i = ram.byte i

theorem WritesTo.refl (ts : List FrameRange) (ram : Ram) : ram.WritesTo ts ram :=
  ⟨rfl, fun _ _ => rfl⟩

theorem WritesTo.trans {ram'' : Ram} (h : ram.WritesTo ts ram') (h' : ram'.WritesTo ts ram'') :
    ram.WritesTo ts ram'' :=
  ⟨h'.size.trans h.size, fun i hi => (h'.byte i hi).trans (h.byte i hi)⟩

theorem WritesTo.mono (h : ram.WritesTo ts ram') (hsub : ts ⊆ us) : ram.WritesTo us ram' :=
  ⟨h.size, fun i hi => h.byte i fun t ht => hi t (hsub ht)⟩

theorem WritesIn.writesTo (h : ram.WritesIn t ram') (ht : t ∈ ts) : ram.WritesTo ts ram' :=
  ⟨h.size, fun i hi => h.byte i (hi t ht)⟩

end frames
end Ram

namespace Ledger
variable {l old : Ledger} {pa : PAddr} {ram ram' : Ram}

/-- RAM holds the entries from `pa` on, as far as it reaches. -/
def StoredAt (l : Ledger) (pa : PAddr) (ram : Ram) : Prop :=
  ∀ k, k < l.size * entrySize → pa.val + k < ram.size → ram.byte (pa.val + k) = l.byte k

theorem byte_congr {k : Nat} (h : l.get? (k / entrySize) = old.get? (k / entrySize)) :
    l.byte k = old.byte k := by
  rw [byte, byte, h]

theorem byte_new (frames k : Nat) : (new frames).byte k = 0 := by
  unfold byte
  rw [get?, new, Array.getElem?_replicate]
  by_cases hin : k / entrySize < frames
  · rw [if_pos hin]
    exact Entry.byte_free _
  · rw [if_neg hin]

/-- Nothing is written where no entry is new. -/
theorem store_self (l : Ledger) (pa : PAddr) (ram : Ram) : l.store l pa ram = ram := by
  have hempty : l.changes l = [] := by simp [changes]
  rw [store, hempty]
  rfl

/-- New entries go where the entries are. -/
theorem changesAt_store (l old : Ledger) (pa : PAddr) (ram : Ram) :
    ram.ChangesAt pa.val (l.size * entrySize) (l.store old pa ram) := by
  obtain ⟨first, stop, hstop, -, hbyte⟩ := byte_store l old pa ram
  refine ⟨size_store .., ?_⟩
  intro i hi
  rw [hbyte, if_neg]
  rintro ⟨hge, hlt, -⟩
  have hrow : stop * entrySize ≤ l.size * entrySize := Nat.mul_le_mul_right _ hstop
  omega

theorem StoredAt.store (h : old.StoredAt pa ram) (hsize : l.size = old.size) :
    l.StoredAt pa (l.store old pa ram) := by
  obtain ⟨first, stop, -, hsame, hbyte⟩ := byte_store l old pa ram
  intro k hk hin
  rw [size_store] at hin
  rw [hbyte]
  split
  · rw [Nat.add_sub_cancel_left]
  · next hout =>
    -- outside of the row that is written the entry is the old one, and RAM had that
    have hentry : k / entrySize < l.size := Nat.div_lt_of_lt_mul (by rwa [Nat.mul_comm])
    have hold : l.get? (k / entrySize) = old.get? (k / entrySize) := by
      apply hsame _ hentry
      simp only [entrySize] at *
      omega
    rw [hsize] at hk
    rw [h k hk hin, byte_congr hold]

/-- A write that leaves the bytes of the entries as they were. -/
theorem StoredAt.of_bytes (h : l.StoredAt pa ram) (hsize : ram'.size = ram.size)
    (hbytes : ∀ i, pa.val ≤ i → i < pa.val + l.size * entrySize → ram'.byte i = ram.byte i) :
    l.StoredAt pa ram' := by
  intro k hk hin
  rw [hsize] at hin
  rw [hbytes _ (Nat.le_add_right ..) (Nat.add_lt_add_left hk _), h k hk hin]

/-- The entries of free frames are zeros. -/
theorem storedAt_new (frames : Nat) (pa : PAddr) (ram : Ram) :
    (new frames).StoredAt pa (ram.update pa.val (frames * entrySize) fun _ => 0) := by
  intro k hk hin
  rw [size_new] at hk
  rw [Ram.size_update] at hin
  rw [byte_new, Ram.byte_update, if_pos ⟨Nat.le_add_right .., Nat.add_lt_add_left hk _, hin⟩]

end Ledger

namespace Machine
variable {m m' m'' : Machine} {pool : FramePool}

/-- Number of bytes that the entries of the ledger take in RAM, once there is one. -/
def ledgerSize (m : Machine) : Nat :=
  match m.frames.value with
  | .boot _ => 0
  | .pool pool => pool.ledger.size * entrySize

/-- Byte `i` of RAM is one of the ledger's. -/
def InLedger (m : Machine) (i : Nat) : Prop :=
  m.ledgerAt.val ≤ i ∧ i < m.ledgerAt.val + m.ledgerSize

/-- What lies in RAM where the ledger is are its entries. -/
def StoresLedger (m : Machine) : Prop :=
  ∀ pool, m.frames.value = .pool pool → pool.ledger.StoredAt m.ledgerAt m.ram

theorem ledgerSize_of_boot {memory : BootMemory} (h : m.frames.value = .boot memory) :
    m.ledgerSize = 0 := by
  rw [ledgerSize, h]

theorem ledgerSize_of_pool (h : m.frames.value = .pool pool) :
    m.ledgerSize = pool.ledger.size * entrySize := by
  rw [ledgerSize, h]

theorem not_inLedger_of_boot {memory : BootMemory} (h : m.frames.value = .boot memory) (i : Nat) :
    ¬ m.InLedger i := by
  rw [InLedger, ledgerSize_of_boot h]
  omega

/-- The ledger lies below the frames that it is for. -/
def LedgerBelow (m : Machine) : Prop :=
  ∀ pool, m.frames.value = .pool pool →
    m.ledgerAt.val + pool.ledger.size * entrySize ≤ pool.base.val

theorem LedgerBelow.lt_base (h : m.LedgerBelow) (hpool : m.frames.value = .pool pool) {i : Nat}
    (hi : m.InLedger i) : i < pool.base.val := by
  have hlt := hi.2
  rw [ledgerSize_of_pool hpool] at hlt
  exact Nat.lt_of_lt_of_le hlt (h pool hpool)

/-- Where the entries of two machines are the same, the bytes are. -/
theorem StoresLedger.byte_eq_of_entry {p q : FramePool} (h : m.StoresLedger) (h' : m'.StoresLedger)
    (hp : m.frames.value = .pool p) (hq : m'.frames.value = .pool q)
    (hledger : m'.ledgerAt = m.ledgerAt) (hledgerSize : m'.ledgerSize = m.ledgerSize)
    (hsize : m'.ram.size = m.ram.size) {i : Nat} (hi : m.InLedger i)
    (hentry : q.ledger.get? ((i - m.ledgerAt.val) / entrySize) =
      p.ledger.get? ((i - m.ledgerAt.val) / entrySize)) :
    m'.ram.byte i = m.ram.byte i := by
  obtain ⟨hge, hlt⟩ := hi
  obtain ⟨k, rfl⟩ := Nat.exists_eq_add_of_le hge
  rw [Nat.add_sub_cancel_left] at hentry
  have hk : k < p.ledger.size * entrySize := by
    rw [← ledgerSize_of_pool hp]
    exact Nat.lt_of_add_lt_add_left hlt
  have hk' : k < q.ledger.size * entrySize := by
    rwa [← ledgerSize_of_pool hq, hledgerSize, ledgerSize_of_pool hp]
  rcases Nat.lt_or_ge (m.ledgerAt.val + k) m.ram.size with hin | hout
  · have hafter := h' q hq k hk'
    rw [hledger, hsize] at hafter
    rw [h p hp k hk hin, hafter hin, Ledger.byte_congr hentry]
  · have hout' : m'.ram.size ≤ m.ledgerAt.val + k := by rwa [hsize]
    rw [Ram.byte_of_le hout, Ram.byte_of_le hout']

theorem StoresLedger.byte_eq (h : m.StoresLedger) (h' : m'.StoresLedger)
    (hsource : m'.frames.value = m.frames.value) (hledger : m'.ledgerAt = m.ledgerAt)
    (hsize : m'.ram.size = m.ram.size) {i : Nat} (hi : m.InLedger i) :
    m'.ram.byte i = m.ram.byte i := by
  cases hpool : m.frames.value with
  | boot memory => exact absurd hi (not_inLedger_of_boot hpool i)
  | pool pool =>
    have hledgerSize : m'.ledgerSize = m.ledgerSize := by rw [ledgerSize, ledgerSize, hsource]
    exact h.byte_eq_of_entry h' hpool (hsource.trans hpool) hledger hledgerSize hsize hi rfl

/-- The entry of frame `i`, once there is a pool. -/
def entry? (m : Machine) (i : Nat) : Option Entry :=
  match m.frames.value with
  | .boot _ => none
  | .pool pool => pool.ledger.get? i

/-- The first byte of an entry tells its kind. -/
theorem StoresLedger.byte_start (h : m.StoresLedger) {i j : Nat} {e : Entry}
    (he : m.entry? i = some e) (hj : m.ledgerAt.val + i * entrySize = j) (hin : j < m.ram.size) :
    m.ram.byte j = .ofNat e.kind := by
  subst hj
  unfold entry? at he
  cases hpool : m.frames.value with
  | boot memory =>
    rw [hpool] at he
    cases he
  | pool pool =>
    rw [hpool] at he
    have hentry : pool.ledger.get? i = some e := he
    obtain ⟨hi, -⟩ := Array.getElem?_eq_some_iff.mp he
    have hk : i * entrySize < pool.ledger.size * entrySize :=
      Nat.mul_lt_mul_of_pos_right hi (by decide)
    rw [h pool hpool _ hk hin, Ledger.byte, Nat.mul_div_cancel _ (by decide), hentry,
      Nat.mul_mod_left]
    rfl

/-- From `m` to `m'` nothing is written but the ledger, which stays where it is and goes on holding its
entries. -/
structure WritesLedger (m m' : Machine) : Prop where
  size : m'.ram.size = m.ram.size
  byte : ∀ i, ¬ m.InLedger i → m'.ram.byte i = m.ram.byte i
  ledgerAt_eq : m'.ledgerAt = m.ledgerAt
  ledgerSize_eq : m'.ledgerSize = m.ledgerSize
  stored : m.StoresLedger → m'.StoresLedger

theorem inLedger_congr (hledger : m'.ledgerAt = m.ledgerAt) (hsize : m'.ledgerSize = m.ledgerSize)
    (i : Nat) : m'.InLedger i ↔ m.InLedger i := by
  rw [InLedger, InLedger, hledger, hsize]

theorem WritesLedger.inLedger (h : m.WritesLedger m') (i : Nat) : m'.InLedger i ↔ m.InLedger i :=
  inLedger_congr h.ledgerAt_eq h.ledgerSize_eq i

theorem WritesLedger.trans (h : m.WritesLedger m') (h' : m'.WritesLedger m'') :
    m.WritesLedger m'' := by
  refine ⟨h'.size.trans h.size, ?_, h'.ledgerAt_eq.trans h.ledgerAt_eq,
    h'.ledgerSize_eq.trans h.ledgerSize_eq, fun hstored => h'.stored (h.stored hstored)⟩
  intro i hi
  have hi' : ¬ m'.InLedger i := by rwa [h.inLedger]
  exact (h'.byte i hi').trans (h.byte i hi)

/-- Neither the ledger nor RAM is touched. -/
theorem WritesLedger.of_same (hsource : m'.frames.value = m.frames.value)
    (hledger : m'.ledgerAt = m.ledgerAt) (hram : m'.ram = m.ram) : m.WritesLedger m' := by
  constructor
  case size => rw [hram]
  case byte =>
    intro i _
    rw [hram]
  case ledgerAt_eq => exact hledger
  case ledgerSize_eq => rw [ledgerSize, ledgerSize, hsource]
  case stored => exact fun hstored => by simpa only [StoresLedger, hsource, hledger, hram]

/-- Boot memory has no ledger. -/
theorem WritesLedger.of_boot {memory next : BootMemory} (hsource : m.frames.value = .boot memory)
    (hnext : m'.frames.value = .boot next) (hledger : m'.ledgerAt = m.ledgerAt)
    (hram : m'.ram = m.ram) : m.WritesLedger m' := by
  constructor
  case size => rw [hram]
  case byte =>
    intro i _
    rw [hram]
  case ledgerAt_eq => exact hledger
  case ledgerSize_eq => rw [ledgerSize_of_boot hsource, ledgerSize_of_boot hnext]
  case stored =>
    intro _ pool hpool
    cases hnext.symm.trans hpool

theorem WritesLedger.refl (m : Machine) : m.WritesLedger m := .of_same rfl rfl rfl

end Machine
end MipsVm
