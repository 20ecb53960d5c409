import MipsVm.Proofs.LedgerScan

/-! What the release of a run does to a ledger, whatever its entries are. The frames made free are those
of the longest chain that starts at the released entry, also where the recorded length is another and
the release fails; freeing them one by one and counting leads to the same ledger and the same number. -/
namespace MipsVm
namespace Ledger

/-- Frees the entries from `i` on, one after the other, while each is the next of a run of which
`cleared` frames are free already; answers how many are free in the end. -/
def clearFrom (l : Ledger) (i cleared : Nat) : Nat × Ledger :=
  if h : i < l.entries.size then
    if l.entries[i] = .continuation (cleared + 1) then
      (l.overwrite i 1 fun _ => .free).clearFrom (i + 1) (cleared + 1)
    else (cleared, l)
  else (cleared, l)
termination_by l.entries.size - i
decreasing_by
  have hsize := l.size_overwrite i 1 fun _ => .free
  simp only [size] at hsize
  omega

/-- Frees the entry `start` and then all that continue it. -/
def clearRun (l : Ledger) (start : Nat) : Nat × Ledger :=
  (l.overwrite start 1 fun _ => .free).clearFrom (start + 1) 1

theorem clearFrom_of_continues {l : Ledger} {i cleared : Nat}
    (h : l.get? i = some (.continuation (cleared + 1))) :
    l.clearFrom i cleared = (l.overwrite i 1 fun _ => .free).clearFrom (i + 1) (cleared + 1) := by
  have hlt := lt_size_of_get? h
  rw [clearFrom, dif_pos hlt, if_pos (getElem_of_get? h hlt)]

theorem clearFrom_of_ends {l : Ledger} {i cleared : Nat}
    (h : l.get? i ≠ some (.continuation (cleared + 1))) : l.clearFrom i cleared = (cleared, l) := by
  rw [clearFrom]
  split_ifs with hlt hentry
  · rw [get?_eq_getElem hlt, hentry] at h
    exact absurd rfl h
  · rfl
  · rfl

/-- After `k` steps the first `k` of the run's `n` frames are free and the others are as they were. -/
theorem clearFrom_of_spans {l : Ledger} {start n k : Nat} (h : l.Spans start n) (hpos : 0 < k)
    (hk : k ≤ n) :
    (l.overwrite start k fun _ => .free).clearFrom (start + k) k =
      (n, l.overwrite start n fun _ => .free) := by
  have hget : (l.overwrite start k fun _ => .free).get? (start + k) = l.get? (start + k) := by
    rw [get?_overwrite, if_neg (by omega)]
  induction hd : n - k generalizing k with
  | zero =>
    -- the run is cleared, and the entry behind it does not continue it
    obtain rfl : k = n := by omega
    apply clearFrom_of_ends
    rw [hget]
    exact h.stops
  | succ d ih =>
    have hcontinues := hget.trans (h.chain k hpos (by omega))
    rw [clearFrom_of_continues hcontinues, overwrite_succ, Nat.add_assoc]
    apply ih (Nat.succ_pos k) (by omega) _ (by omega)
    rw [get?_overwrite, if_neg (by omega)]

theorem clearRun_of_spans {l : Ledger} {start n : Nat} (h : l.Spans start n) :
    l.clearRun start = (n, l.overwrite start n fun _ => .free) :=
  clearFrom_of_spans h Nat.one_pos h.pos

/-- The release at `start` makes free the `n` frames of the longest chain there and no other: the run
that the audit counts, and that is found by clearing one entry after the other. -/
structure Releases (l : Ledger) (start : Fin l.size) (n : Nat) : Prop where
  spans : l.Spans start n
  counted : l.runLength start = n
  get? : ∀ i, (l.release start).2.get? i =
    if start ≤ i ∧ i < start + n then some .free else l.get? i
  stepwise : l.clearRun start = (n, (l.release start).2)

theorem releases_of_cleared {l : Ledger} {start : Fin l.size}
    (h : l.cleared start = l.overwrite start (l.runLength start) fun _ => .free) :
    l.Releases start (l.runLength start) := by
  have hspans := l.spans_runLength start
  have hle := add_runLength_le_size start.isLt
  have hrelease : (l.release start).2 = l.overwrite start (l.runLength start) fun _ => .free := h
  constructor
  case spans => exact hspans
  case counted => rfl
  case get? =>
    intro i
    rw [hrelease, get?_overwrite]
    -- the frames of the run are all in the ledger
    congr 1
    exact propext (by omega)
  case stepwise => rw [hrelease, clearRun_of_spans hspans]

/-- Whatever the entries are, a release fails at a free frame and inside of a run with nothing changed,
and at the start of a run it frees the chain; a length that was recorded is compared after that. -/
theorem release_effect (l : Ledger) (start : Fin l.size) :
    match l.get start with
    | .free => l.release start = (.error (.doubleFree start), l)
    | .continuation _ => l.release start = (.error (.notRunStart start), l)
    | .start declared => ∃ n, l.Releases start n ∧ (l.release start).1 =
        if declared = n then .ok ⟨some declared, n⟩ else .error (.lengthMismatch start declared n)
    | .footer => ∃ n, l.Releases start n ∧ (l.release start).1 = .ok ⟨none, n⟩ := by
  cases hentry : l.get start with
  | free => simp only [release, released, cleared, hentry]
  | continuation position => simp only [release, released, cleared, hentry]
  | start declared =>
    refine ⟨_, releases_of_cleared (by simp only [cleared, hentry]), ?_⟩
    simp only [release, released, hentry]
  | footer =>
    refine ⟨_, releases_of_cleared (by simp only [cleared, hentry]), ?_⟩
    simp only [release, released, hentry]

end Ledger
end MipsVm
