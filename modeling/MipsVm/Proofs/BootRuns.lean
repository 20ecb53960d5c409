import MipsVm.Proofs.Bootstrap

/-! Boot memory as a cursor. The runs that it hands out lie end to end from its first frame on, however
many requests were turned down in between, and a request is turned down only where it does not fit. -/
namespace MipsVm

namespace FrameRange
variable {start stop : Nat} {rs : List FrameRange}

/-- The runs follow one another without a gap, from `start` to `stop`. -/
def EndToEnd : Nat → List FrameRange → Nat → Prop
  | start, [], stop => start = stop
  | start, r :: rs, stop => r.start = start ∧ EndToEnd r.stop rs stop

theorem EndToEnd.sum_frames (h : EndToEnd start rs stop) :
    start + (rs.map frames).sum * pageSize = stop := by
  induction rs generalizing start with
  | nil =>
    rw [List.map_nil, List.sum_nil, Nat.zero_mul, Nat.add_zero]
    exact h
  | cons r rs ih =>
    obtain ⟨hstart, hrest⟩ := h
    calc
      start + ((r :: rs).map frames).sum * pageSize
          = r.stop + (rs.map frames).sum * pageSize := by
        rw [List.map_cons, List.sum_cons, Nat.add_mul, ← Nat.add_assoc, ← hstart, FrameRange.stop]
      _ = stop := ih hrest

theorem EndToEnd.le (h : EndToEnd start rs stop) : start ≤ stop := by
  rw [← h.sum_frames]
  exact Nat.le_add_right ..

theorem EndToEnd.inside (h : EndToEnd start rs stop) :
    ∀ r ∈ rs, start ≤ r.start ∧ r.stop ≤ stop := by
  induction rs generalizing start with
  | nil => exact nofun
  | cons r rs ih =>
    obtain ⟨hstart, hrest⟩ := h
    intro t ht
    rcases List.mem_cons.mp ht with rfl | htail
    · exact ⟨Nat.le_of_eq hstart.symm, hrest.le⟩
    obtain ⟨hbegin, hend⟩ := ih hrest t htail
    refine ⟨?_, hend⟩
    calc
      start = r.start := hstart.symm
      _ ≤ r.stop := Nat.le_add_right ..
      _ ≤ t.start := hbegin

theorem EndToEnd.ascending (h : EndToEnd start rs stop) :
    rs.Pairwise fun r t => r.stop ≤ t.start := by
  induction rs generalizing start with
  | nil => exact .nil
  | cons r rs ih =>
    -- what follows `r` begins at its end
    apply List.pairwise_cons.mpr
    exact ⟨fun t ht => (h.2.inside t ht).1, ih h.2⟩

end FrameRange

namespace BootMemory
variable {b : BootMemory}

/-- The runs that were handed out when requests for `ns` frames were answered by `answers`. -/
def runs (ns : List Nat) (answers : List (Except Halt PAddr)) : List FrameRange :=
  (ns.zip answers).filterMap fun (n, answer) => answer.toOption.map fun pa => ⟨pa.val, n⟩

/-- The requests that are granted take their frames in a row, from the cursor on. -/
theorem serve_take (hle : b.next ≤ b.limit) (ns : List Nat) :
    FrameRange.EndToEnd b.next.val (runs ns (serve take b ns).1) (serve take b ns).2.next.val ∧
      ∃ n, b.Advances n (serve take b ns).2 := by
  -- the rest of the requests is served from the cursor that the first one leaves
  induction ns generalizing b with
  | nil => exact ⟨rfl, 0, .zero hle⟩
  | cons n ns ih =>
    rw [serve]
    cases htake : (b.take n).1 with
    | error halt =>
      rw [take_of_error htake]
      exact ih hle
    | ok pa =>
      have hfirst : b.Advances n (b.take n).2 := advances_take htake
      obtain ⟨hrest, k, hadvances⟩ := ih hfirst.cursor_le
      obtain ⟨rfl, -⟩ := take_eq_ok_iff.mp htake
      refine ⟨⟨rfl, ?_⟩, n + k, hfirst.trans hadvances⟩
      rw [hfirst.next_val] at hrest
      exact hrest

/-- A request for as many frames as are left, or fewer, is granted where the cursor stands, and every
other one halts and leaves the cursor where it is. -/
structure Decides (b : BootMemory) (left : Nat) : Prop where
  framesLeft_eq : b.framesLeft = .ok left
  take_of_le : ∀ n ≤ left, ∃ c, b.take n = (.ok b.next, c) ∧ b.Advances n c
  take_of_lt : ∀ n, left < n → b.take n = (.error .bootMemoryExhausted, b)
  /-- Counting the frames left for the log does not halt. -/
  logs : ∀ n, ∃ records, b.takeRecords n = .ok records

theorem decides_of_le (hle : b.next ≤ b.limit) :
    b.Decides ((b.limit.val - b.next.val) / pageSize) := by
  -- what is left counts whole frames only, so the test on addresses is one on numbers of frames
  have hfits (n : Nat) : b.next.val + n * pageSize ≤ b.limit.val ↔
      n ≤ (b.limit.val - b.next.val) / pageSize := by
    rw [Address.le_def] at hle
    rw [Nat.le_div_iff_mul_le (by decide)]
    omega
  constructor
  case framesLeft_eq => exact framesLeft_eq hle
  case take_of_le =>
    intro n hn
    have htake : (b.take n).1 = .ok b.next := take_eq_ok_iff.mpr ⟨rfl, (hfits n).mpr hn⟩
    exact ⟨(b.take n).2, Prod.ext htake rfl, advances_take htake⟩
  case take_of_lt =>
    intro n hn
    cases htake : (b.take n).1 with
    | ok pa =>
      have hroom := (hfits n).mp (take_eq_ok_iff.mp htake).2
      exact absurd hn (Nat.not_lt.mpr hroom)
    | error halt =>
      obtain rfl := halt_of_take htake
      exact Prod.ext htake (take_of_error htake)
  case logs => exact takeRecords_eq_ok hle

/-- Boot memory between `first` and `last` that has handed out `runs`: they fill the frames below the
cursor, in the order in which they were asked for, and the others are left. -/
structure Bumped (first last : PAddr) (runs : List FrameRange) (b : BootMemory) : Prop where
  next_dvd : pageSize ∣ b.next.val
  start_le : pageFrom first last.alignDown ≤ b.next.val
  next_le : b.next ≤ last.alignDown
  limit_eq : b.limit = last.alignDown
  endToEnd : FrameRange.EndToEnd (pageFrom first last.alignDown) runs b.next.val
  ascending : runs.Pairwise fun r t => r.stop ≤ t.start
  apart : runs.Pairwise FrameRange.Apart
  inside : ∀ r ∈ runs, pageFrom first last.alignDown ≤ r.start ∧ r.stop ≤ last.alignDown.val
  decides : ∃ left, b.Decides left ∧ (runs.map FrameRange.frames).sum + left =
    (last.alignDown.val - pageFrom first last.alignDown) / pageSize

/-- Whatever numbers of frames are asked for, in whatever order. -/
theorem bumped_of_takes (first last : PAddr) (ns : List Nat) :
    Bumped first last (runs ns (serve take (.new first last) ns).1)
      (serve take (.new first last) ns).2 := by
  have hstart := new_next first last
  have hle : (new first last).next ≤ (new first last).limit := by
    rw [Address.le_def, hstart, new_limit]
    exact pageFrom_le ..
  obtain ⟨hrow, n, hadvances⟩ := serve_take hle ns
  have hlimit : (serve take (.new first last) ns).2.limit = last.alignDown :=
    hadvances.limit_eq.trans (new_limit first last)
  have hcursor := hadvances.cursor_le
  have hnext : (serve take (.new first last) ns).2.next ≤ last.alignDown := hlimit ▸ hcursor
  rw [hstart] at hrow
  constructor
  case next_dvd =>
    rw [hadvances.next_val, hstart]
    exact Nat.dvd_add (pageFrom_dvd last.isPageAligned_alignDown) (Nat.dvd_mul_left ..)
  case start_le => exact hrow.le
  case next_le => exact hnext
  case limit_eq => exact hlimit
  case endToEnd => exact hrow
  case ascending => exact hrow.ascending
  case apart => exact hrow.ascending.imp .inl
  case inside =>
    intro r hr
    obtain ⟨hbegin, hend⟩ := hrow.inside r hr
    exact ⟨hbegin, Nat.le_trans hend hnext⟩
  case decides =>
    refine ⟨_, decides_of_le hcursor, ?_⟩
    -- the frames handed out reach up to the cursor, and those left from there to the end
    rw [hlimit, ← hrow.sum_frames]
    rw [Address.le_def, ← hrow.sum_frames] at hnext
    simp only [pageSize] at *
    omega

/-- The request for five frames is turned down, and the one for none gets an empty run. -/
example :
    runs [1, 5, 0, 2] (serve take (.new ⟨0xFFF, by decide⟩ ⟨0x4FFF, by decide⟩) [1, 5, 0, 2]).1 =
      [⟨0x1000, 1⟩, ⟨0x2000, 0⟩, ⟨0x2000, 2⟩] := by
  decide

end BootMemory
end MipsVm
