import X64.Proofs.Effect.Footprint
import X64.Proofs.Machine.InPlace
import X64.Proofs.Stack.Bracketing

/-!
# The stack is last-in first-out

A well-bracketed sequence of pushes and pops gives back what it was given: every pop returns the
value of the push that it closes, and at the end all registers are as before
(`stack_is_last_in_first_out`). It needs eight bytes below `rsp` for each level of nesting. If they
are not there, the first call that fails is a push, and it changes nothing.

Both directions are inductions over the brackets of the sequence. What is nested in a bracket works
below its slot, so the slot still holds the value when the pop comes to it. That is the only fact
about the contents of memory that is carried along (`Memory.AgreesOutside`). No list of the values
on the stack is needed.
-/

namespace X64

/-! ## Memory below a place -/

namespace Memory

/-- The memories have one size, and they have the same bytes except between two places. -/
structure AgreesOutside (m m' : Memory) (low high : Nat) : Prop where
  size_eq : m'.size = m.size
  getElem?_eq : ∀ k, k < low ∨ high ≤ k → m'.bytes[k]? = m.bytes[k]?

variable {m m' m'' : Memory} {low high low' high' : Nat}

theorem AgreesOutside.refl (m : Memory) (low high : Nat) : m.AgreesOutside m low high :=
  ⟨rfl, fun _ _ => rfl⟩

theorem AgreesOutside.mono (h : m.AgreesOutside m' low high) (hlow : low' ≤ low)
    (hhigh : high ≤ high') : m.AgreesOutside m' low' high' :=
  ⟨h.size_eq, fun k hk => h.getElem?_eq k (by omega)⟩

theorem AgreesOutside.trans (h : m.AgreesOutside m' low high) (h' : m'.AgreesOutside m'' low high) :
    m.AgreesOutside m'' low high :=
  ⟨h'.size_eq.trans h.size_eq, fun k hk => (h'.getElem?_eq k hk).trans (h.getElem?_eq k hk)⟩

/-- A word is changed in its own place only. -/
theorem agreesOutside_store (m : Memory) (s : Store) :
    m.AgreesOutside (m.store s.address (bytesOfWord s.width.bytes s.value)) s.address.toNat
      (s.address.toNat + s.width.bytes) where
  size_eq := size_store m _ _
  getElem?_eq := by
    intro k hk
    refine getElem?_store_of_not_covers fun hcovers => ?_
    rw [Store.Covers] at hcovers
    omega

/-- A word that lies apart is read as before. -/
theorem AgreesOutside.read_eq (h : m.AgreesOutside m' low high) {a : UInt64} {w : Width}
    (ha : a.toNat + w.bytes ≤ low ∨ high ≤ a.toNat) : m'.read a w = m.read a w := by
  have hextract : m'.bytes.extract a.toNat (a.toNat + w.bytes) =
      m.bytes.extract a.toNat (a.toNat + w.bytes) := by
    have hsize : m'.bytes.size = m.bytes.size := h.size_eq
    apply Array.ext_getElem?
    intro l
    rw [Array.getElem?_extract, Array.getElem?_extract, hsize]
    split
    · exact h.getElem?_eq _ (by omega)
    · rfl
  simp only [read, readBytes, check, InBounds, h.size_eq, hextract]
  rfl

end Memory

/-! ## Calls in place -/

namespace StackCall

/-- Carries out a call. A pop returns its value. -/
def run : StackCall → InPlace (Memory × State) ExecutionError (Option UInt64)
  | .push value => fun (memory, state) =>
    match pushInPlace state value memory with
    | (.ok next, memory') => (.ok none, (memory', next))
    | (.error error, memory') => (.error error, (memory', state))
  | .pop => fun (memory, state) =>
    match popWord memory state with
    | .ok (value, next) => (.ok (some value), (memory, next))
    | .error error => (.error error, (memory, state))

/-- Carries out one call after the other, up to the first one that fails. -/
def runAll : List StackCall → InPlace (Memory × State) ExecutionError (List (Option UInt64))
  | [] => pure []
  | call :: calls => do
    let result ← call.run
    let results ← runAll calls
    pure (result :: results)

variable {memory memory' : Memory} {state state' : State} {v : UInt64} {error : ExecutionError}
  {x y z : Memory × State} {call : StackCall} {calls later : List StackCall}
  {results : List (Option UInt64)}

/-- A push has the effect of `pushWord`, and it changes nothing if there is none. -/
theorem run_push (memory : Memory) (state : State) (v : UInt64) :
    run (.push v) (memory, state) =
      match pushWord memory state v with
      | .ok e => (.ok none, (e.commit memory, e.state))
      | .error error => (.error error, (memory, state)) := by
  have hsettles := settles_pushInPlace state v memory
  unfold Settles at hsettles
  simp only [run]
  rw [hsettles]
  cases pushWord memory state v <;> rfl

/-- With room for a slot below `rsp`, a push stores its value there. -/
theorem run_push_of_inBounds (h : memory.InBounds (state.rsp - slotSize) Width.qword.bytes) :
    run (.push v) (memory, state) =
      (.ok none, (memory.store (state.rsp - slotSize) (bytesOfWord Width.qword.bytes v),
        state.set .rsp (state.rsp - slotSize))) := by
  rw [run_push, pushWord_eq h]
  rfl

theorem run_push_of_not_inBounds
    (h : ¬memory.InBounds (state.rsp - slotSize) Width.qword.bytes) :
    run (.push v) (memory, state) =
      (.error (.memory ⟨state.rsp - slotSize, Width.qword.bytes, memory.size⟩),
        (memory, state)) := by
  rw [run_push, pushWord, storeEffect, Memory.check, if_neg h]

theorem run_pop_of_read (h : memory.read state.rsp .qword = .ok v) :
    run .pop (memory, state) = (.ok (some v), (memory, state.set .rsp (state.rsp + slotSize))) := by
  simp only [run, popWord_eq h]

/-- No call changes the size of memory. -/
theorem size_run (call : StackCall) (x : Memory × State) : (call.run x).2.1.size = x.1.size := by
  obtain ⟨memory, state⟩ := x
  cases call with
  | push v =>
    by_cases h : memory.InBounds (state.rsp - slotSize) Width.qword.bytes
    · rw [run_push_of_inBounds h]
      exact Memory.size_store memory _ _
    · rw [run_push_of_not_inBounds h]
  | pop =>
    simp only [run]
    cases popWord memory state <;> rfl

/-! ### Sequences -/

theorem runAll_cons_eq_ok_iff :
    runAll (call :: calls) x = (.ok results, z) ↔
      ∃ result rest y, call.run x = (.ok result, y) ∧ runAll calls y = (.ok rest, z) ∧
        results = result :: rest := by
  rw [runAll, InPlace.bind_eq_ok_iff]
  constructor
  · rintro ⟨result, y, hcall, h⟩
    obtain ⟨rest, z', hrest, heq⟩ := InPlace.bind_eq_ok_iff.1 h
    cases heq
    exact ⟨result, rest, y, hcall, hrest, rfl⟩
  · rintro ⟨result, rest, y, hcall, hrest, rfl⟩
    exact ⟨result, y, hcall, InPlace.bind_eq_ok_iff.2 ⟨rest, z, hrest, rfl⟩⟩

theorem runAll_cons_of_ok {result : Option UInt64} (hcall : call.run x = (.ok result, y))
    (hrest : runAll calls y = (.ok results, z)) :
    runAll (call :: calls) x = (.ok (result :: results), z) :=
  runAll_cons_eq_ok_iff.2 ⟨result, results, y, hcall, hrest, rfl⟩

theorem runAll_singleton {result : Option UInt64} (hcall : call.run x = (.ok result, y)) :
    runAll [call] x = (.ok [result], y) :=
  runAll_cons_of_ok hcall rfl

/-- A sequence succeeds if its first part does and its second part goes on from there. -/
theorem runAll_append_eq_ok_iff :
    runAll (calls ++ later) x = (.ok results, z) ↔
      ∃ first last y, runAll calls x = (.ok first, y) ∧ runAll later y = (.ok last, z) ∧
        results = first ++ last := by
  induction calls generalizing x results with
  | nil =>
    constructor
    · intro h
      exact ⟨[], results, x, rfl, h, rfl⟩
    · rintro ⟨first, last, y, hfirst, hlast, rfl⟩
      cases hfirst
      exact hlast
  | cons call calls ih =>
    rw [List.cons_append, runAll_cons_eq_ok_iff]
    constructor
    · rintro ⟨result, rest, y, hcall, hrest, rfl⟩
      obtain ⟨first, last, y', hfirst, hlast, rfl⟩ := ih.1 hrest
      exact ⟨result :: first, last, y', runAll_cons_of_ok hcall hfirst, hlast, rfl⟩
    · rintro ⟨_, last, y', hfirst, hlast, rfl⟩
      obtain ⟨result, first, y, hcall, hrest, rfl⟩ := runAll_cons_eq_ok_iff.1 hfirst
      exact ⟨result, first ++ last, y, hcall, ih.2 ⟨first, last, y', hrest, hlast, rfl⟩, rfl⟩

theorem runAll_append_of_ok {first last : List (Option UInt64)}
    (hfirst : runAll calls x = (.ok first, y)) (hlast : runAll later y = (.ok last, z)) :
    runAll (calls ++ later) x = (.ok (first ++ last), z) :=
  runAll_append_eq_ok_iff.2 ⟨first, last, y, hfirst, hlast, rfl⟩

/-- The first call that fails ends the sequence. -/
theorem runAll_of_error (hfirst : runAll calls x = (.ok results, y))
    (hcall : call.run y = (.error error, z)) (later : List StackCall) :
    runAll (calls ++ call :: later) x = (.error error, z) := by
  induction calls generalizing x results with
  | nil =>
    cases hfirst
    exact InPlace.bind_eq_error_iff.2 (Or.inl hcall)
  | cons head calls ih =>
    obtain ⟨result, rest, x', hhead, hrest, -⟩ := runAll_cons_eq_ok_iff.1 hfirst
    exact InPlace.bind_eq_error_iff.2
      (Or.inr ⟨result, x', hhead, InPlace.bind_eq_error_iff.2 (Or.inl (ih hrest))⟩)

theorem length_of_runAll (h : runAll calls x = (.ok results, y)) :
    results.length = calls.length := by
  induction calls generalizing x results with
  | nil =>
    cases h
    rfl
  | cons call calls ih =>
    obtain ⟨result, rest, x', -, hrest, rfl⟩ := runAll_cons_eq_ok_iff.1 h
    rw [List.length_cons, List.length_cons, ih hrest]

theorem size_of_runAll (h : runAll calls x = (.ok results, y)) : y.1.size = x.1.size := by
  induction calls generalizing x results with
  | nil =>
    cases h
    rfl
  | cons call calls ih =>
    obtain ⟨result, rest, x', hcall, hrest, -⟩ := runAll_cons_eq_ok_iff.1 h
    have hsize := size_run call x
    rw [hcall] at hsize
    rw [ih hrest, hsize]

/-! ## Brackets -/

/-- There is a slot below `rsp` if `rsp` is at least a slot above the bottom of memory and not above
its top. -/
theorem inBounds_slot_iff (hsize : memory.size < UInt64.size) :
    memory.InBounds (state.rsp - slotSize) Width.qword.bytes ↔
      8 ≤ state.rsp.toNat ∧ state.rsp.toNat ≤ memory.size := by
  constructor
  · intro h
    have hrsp := toNat_rsp_sub_slotSize hsize h
    rw [Memory.InBounds, show Width.qword.bytes = 8 from rfl] at h
    omega
  · rintro ⟨hlow, hhigh⟩
    have hsub : (state.rsp - slotSize).toNat = state.rsp.toNat - 8 :=
      UInt64.toNat_sub_of_le _ _ (UInt64.le_iff_toNat_le.2 hlow)
    rw [Memory.InBounds, hsub, show Width.qword.bytes = 8 from rfl]
    omega

theorem exists_run_push_eq_error (hsize : memory.size < UInt64.size)
    (hslot : ¬(8 ≤ state.rsp.toNat ∧ state.rsp.toNat ≤ memory.size)) :
    ∃ bounds, run (.push v) (memory, state) = (.error (.memory bounds), (memory, state)) :=
  ⟨_, run_push_of_not_inBounds (mt (inBounds_slot_iff hsize).1 hslot)⟩

/-- A push stores its value in the slot below `rsp`. If memory then changes only below the slot, a
pop undoes the push and returns its value. -/
theorem exists_run_push_eq_ok (v : UInt64) (hsize : memory.size < UInt64.size)
    (hslot : 8 ≤ state.rsp.toNat ∧ state.rsp.toNat ≤ memory.size) :
    ∃ memory' state', run (.push v) (memory, state) = (.ok none, (memory', state')) ∧
      state'.rsp.toNat = state.rsp.toNat - 8 ∧
      memory.AgreesOutside memory' (state.rsp.toNat - 8) state.rsp.toNat ∧
      ∀ {low memory''}, memory'.AgreesOutside memory'' low (state.rsp.toNat - 8) →
        run .pop (memory'', state') = (.ok (some v), (memory'', state)) := by
  have hin := (inBounds_slot_iff hsize).2 hslot
  have hrsp : (state.rsp - slotSize).toNat = state.rsp.toNat - 8 := by
    rw [← toNat_rsp_sub_slotSize hsize hin, Nat.add_sub_cancel]
  have hmoved : (state.set .rsp (state.rsp - slotSize)).rsp = state.rsp - slotSize :=
    state.get_set_self .rsp _
  refine ⟨_, _, run_push_of_inBounds hin, by rw [hmoved, hrsp], ?_, ?_⟩
  · refine (Memory.agreesOutside_store memory ⟨state.rsp - slotSize, .qword, v⟩).mono ?_ ?_
    · exact Nat.le_of_eq hrsp.symm
    · exact Nat.le_of_eq (toNat_rsp_sub_slotSize hsize hin)
  · intro low memory'' h
    have hread : memory''.read (state.set .rsp (state.rsp - slotSize)).rsp .qword = .ok v := by
      rw [hmoved, h.read_eq (Or.inr (Nat.le_of_eq hrsp.symm)), Memory.read_store_self hin,
        Width.truncate_qword]
    have hback : (state.set .rsp (state.rsp - slotSize)).set .rsp
        (state.rsp - slotSize + slotSize) = state := by
      rw [UInt64.sub_add_cancel]
      apply State.ext_get
      · intro r
        by_cases hr : r = .rsp
        · rw [hr, State.get_set_self]
          rfl
        · rw [State.get_set_of_ne _ hr, State.get_set_of_ne _ hr]
      · rfl
    rw [run_pop_of_read hread, hmoved, hback]

/-- There is room for the calls below a place in memory: a slot for every level of nesting. Without
calls there is nothing to find room for. -/
def HasRoom (calls : List StackCall) (size rsp : Nat) : Prop :=
  8 * depth calls ≤ rsp ∧ (calls = [] ∨ rsp ≤ size)

variable {earlier inner : List StackCall}

/-- A bracket needs room for the calls before it, for its slot, and below the slot for the calls
that are nested in it. -/
theorem hasRoom_nest_iff (he : Balanced earlier) (hi : Balanced inner) {size rsp : Nat} :
    HasRoom (nest earlier v inner) size rsp ↔
      HasRoom earlier size rsp ∧ (8 ≤ rsp ∧ rsp ≤ size) ∧ HasRoom inner size (rsp - 8) := by
  have hne : nest earlier v inner ≠ [] := by simp [nest]
  simp only [HasRoom, depth_nest he.wellBracketed hi.wellBracketed, hne, false_or]
  constructor
  · rintro ⟨hlow, hhigh⟩
    exact ⟨⟨by omega, Or.inr hhigh⟩, ⟨by omega, hhigh⟩, by omega, Or.inr (by omega)⟩
  · rintro ⟨⟨hearlier, -⟩, ⟨hlow, hhigh⟩, hinner, -⟩
    exact ⟨by omega, hhigh⟩

/-- With room, the calls succeed. They leave the registers as they were, and they change memory
only in the room below `rsp`. -/
theorem Balanced.runAll_of_hasRoom (h : Balanced calls) (hsize : memory.size < UInt64.size)
    (hroom : HasRoom calls memory.size state.rsp.toNat) :
    ∃ results memory', runAll calls (memory, state) = (.ok results, (memory', state)) ∧
      memory.AgreesOutside memory' (state.rsp.toNat - 8 * depth calls) state.rsp.toNat := by
  induction h generalizing memory state with
  | nil => exact ⟨[], memory, rfl, .refl memory _ _⟩
  | @nest earlier inner v he hi ihe ihi =>
    obtain ⟨hearlier, hslot, hinner⟩ := (hasRoom_nest_iff he hi).1 hroom
    obtain ⟨first, memory₁, hfirst, hagrees₁⟩ := ihe hsize hearlier
    have hsize₁ := hagrees₁.size_eq
    obtain ⟨memory₂, state₂, hpush, hrsp, hagrees₂, hpop⟩ :=
      exists_run_push_eq_ok v (hsize₁ ▸ hsize) (hsize₁ ▸ hslot)
    have hsize₂ := hagrees₂.size_eq.trans hsize₁
    obtain ⟨last, memory₃, hlast, hagrees₃⟩ :=
      ihi (hsize₂ ▸ hsize) (by rw [hsize₂, hrsp]; exact hinner)
    rw [hrsp] at hagrees₃
    have hnested := runAll_append_of_ok hlast (runAll_singleton (hpop hagrees₃))
    refine ⟨_, memory₃, runAll_append_of_ok hfirst (runAll_cons_of_ok hpush hnested), ?_⟩
    rw [depth_nest he.wellBracketed hi.wellBracketed]
    have hbelow₁ : memory.AgreesOutside memory₁
        (state.rsp.toNat - 8 * max (depth earlier) (depth inner + 1)) state.rsp.toNat :=
      hagrees₁.mono (by omega) (Nat.le_refl _)
    exact (hbelow₁.trans (hagrees₂.mono (by omega) (Nat.le_refl _))).trans
      (hagrees₃.mono (by omega) (by omega))

/-- Without room, some push fails, and nothing else fails before it. -/
theorem Balanced.runAll_of_not_hasRoom (h : Balanced calls) (hsize : memory.size < UInt64.size)
    (hroom : ¬HasRoom calls memory.size state.rsp.toNat) :
    ∃ before v later results x bounds, calls = before ++ .push v :: later ∧
      runAll before (memory, state) = (.ok results, x) ∧
      run (.push v) x = (.error (.memory bounds), x) := by
  induction h generalizing memory state with
  | nil => exact absurd ⟨by simp [depth], Or.inl rfl⟩ hroom
  | @nest earlier inner v he hi ihe ihi =>
    by_cases hearlier : HasRoom earlier memory.size state.rsp.toNat
    · obtain ⟨first, memory₁, hfirst, hagrees₁⟩ := he.runAll_of_hasRoom hsize hearlier
      have hsize₁ := hagrees₁.size_eq
      by_cases hslot : 8 ≤ state.rsp.toNat ∧ state.rsp.toNat ≤ memory.size
      · obtain ⟨memory₂, state₂, hpush, hrsp, hagrees₂, -⟩ :=
          exists_run_push_eq_ok v (hsize₁ ▸ hsize) (hsize₁ ▸ hslot)
        have hsize₂ := hagrees₂.size_eq.trans hsize₁
        have hinner : ¬HasRoom inner memory₂.size state₂.rsp.toNat := by
          rw [hsize₂, hrsp]
          exact fun h => hroom ((hasRoom_nest_iff he hi).2 ⟨hearlier, hslot, h⟩)
        obtain ⟨before, u, later, results, x, bounds, rfl, hbefore, hfail⟩ :=
          ihi (hsize₂ ▸ hsize) hinner
        exact ⟨earlier ++ .push v :: before, u, later ++ [.pop], _, x, bounds,
          by simp [StackCall.nest], runAll_append_of_ok hfirst (runAll_cons_of_ok hpush hbefore),
          hfail⟩
      · obtain ⟨bounds, hfail⟩ := exists_run_push_eq_error (hsize₁ ▸ hsize) (hsize₁ ▸ hslot)
        exact ⟨earlier, v, inner ++ [.pop], first, _, bounds, rfl, hfirst, hfail⟩
    · obtain ⟨before, u, later, results, x, bounds, rfl, hbefore, hfail⟩ := ihe hsize hearlier
      exact ⟨before, u, later ++ .push v :: (inner ++ [.pop]), results, x, bounds,
        by simp [StackCall.nest], hbefore, hfail⟩

theorem Balanced.hasRoom_of_runAll (h : Balanced calls) (hsize : memory.size < UInt64.size)
    (hok : runAll calls (memory, state) = (.ok results, x)) :
    HasRoom calls memory.size state.rsp.toNat := by
  refine Classical.byContradiction fun hroom => ?_
  obtain ⟨before, u, later, first, y, bounds, rfl, hbefore, hfail⟩ :=
    h.runAll_of_not_hasRoom hsize hroom
  rw [runAll_of_error hbefore hfail later] at hok
  cases hok

/-- Calls that succeed had room, so they have left the registers alone, and memory outside of the
room. -/
theorem Balanced.agreesOutside_of_runAll (h : Balanced calls) (hsize : memory.size < UInt64.size)
    (hok : runAll calls (memory, state) = (.ok results, (memory', state'))) :
    state' = state ∧
      memory.AgreesOutside memory' (state.rsp.toNat - 8 * depth calls) state.rsp.toNat := by
  obtain ⟨results', memory'', hrun, hagrees⟩ :=
    h.runAll_of_hasRoom hsize (h.hasRoom_of_runAll hsize hok)
  cases hok.symm.trans hrun
  exact ⟨rfl, hagrees⟩

/-- In calls that succeed, a pop returns the value of the push that it closes. -/
theorem getElem?_of_lastOpen {before : List StackCall} (hsize : memory.size < UInt64.size)
    (hok : runAll (before ++ .pop :: later) (memory, state) = (.ok results, z))
    (hopen : LastOpen before v) : results[before.length]? = some (some v) := by
  obtain ⟨earlier, inner, rfl, hinner⟩ := hopen
  obtain ⟨first, last, ⟨memory₃, state₃⟩, hfirst, hlast, rfl⟩ := runAll_append_eq_ok_iff.1 hok
  obtain ⟨_, _, ⟨memory₁, state₁⟩, hearlier, hbracket, -⟩ := runAll_append_eq_ok_iff.1 hfirst
  obtain ⟨_, _, y, hpush, hnested, -⟩ := runAll_cons_eq_ok_iff.1 hbracket
  have hsize₁ : memory₁.size < UInt64.size := (size_of_runAll hearlier).symm ▸ hsize
  have hslot : 8 ≤ state₁.rsp.toNat ∧ state₁.rsp.toNat ≤ memory₁.size := by
    refine Classical.byContradiction fun hslot => ?_
    obtain ⟨bounds, hfail⟩ := exists_run_push_eq_error (v := v) hsize₁ hslot
    cases hpush.symm.trans hfail
  obtain ⟨memory₂, state₂, hpush', hrsp, hagrees₂, hpop⟩ := exists_run_push_eq_ok v hsize₁ hslot
  cases hpush.symm.trans hpush'
  -- The nested calls are well-bracketed, so they work below the slot.
  obtain ⟨rfl, hagrees₃⟩ :=
    hinner.balanced.agreesOutside_of_runAll (hagrees₂.size_eq.symm ▸ hsize₁) hnested
  obtain ⟨result, rest, y, hresult, -, rfl⟩ := runAll_cons_eq_ok_iff.1 hlast
  cases hresult.symm.trans (hpop (hrsp ▸ hagrees₃))
  rw [← length_of_runAll hfirst, List.getElem?_append_right (Nat.le_refl _), Nat.sub_self]
  rfl

end StackCall

open StackCall

/-- The stack is last-in first-out for every nesting. A well-bracketed sequence of calls succeeds if
and only if there are eight bytes for each level of its depth below `rsp`, inside memory. Then every
pop returns the value of the push that it closes, all registers and flags are as before, and so is
every byte of memory outside of this room. If the sequence fails, the call that fails is a push. Its
error is that of an access out of bounds, and it leaves everything as the calls before it have
left it. Memory is never so large that addresses do not reach its end. -/
theorem stack_is_last_in_first_out {calls : List StackCall} {memory : Memory} {state : State}
    (hne : calls ≠ []) (hcalls : WellBracketed calls) (hsize : memory.size < UInt64.size) :
    ((∃ results x, runAll calls (memory, state) = (.ok results, x)) ↔
        8 * depth calls ≤ state.rsp.toNat ∧ state.rsp.toNat ≤ memory.size) ∧
      (∀ results memory' state', runAll calls (memory, state) = (.ok results, (memory', state')) →
        (∀ before later, calls = before ++ .pop :: later →
          (∃ v, LastOpen before v) ∧
            ∀ v, LastOpen before v → results[before.length]? = some (some v)) ∧
        state' = state ∧
        memory.AgreesOutside memory' (state.rsp.toNat - 8 * depth calls) state.rsp.toNat) ∧
      ∀ error x, runAll calls (memory, state) = (.error error, x) →
        ∃ before v later results bounds, calls = before ++ .push v :: later ∧
          runAll before (memory, state) = (.ok results, x) ∧
          run (.push v) x = (.error error, x) ∧ error = .memory bounds := by
  have hbalanced := hcalls.balanced
  have hroom : HasRoom calls memory.size state.rsp.toNat ↔
      8 * depth calls ≤ state.rsp.toNat ∧ state.rsp.toNat ≤ memory.size := by
    simp [HasRoom, hne]
  refine ⟨⟨?_, fun h => ?_⟩, fun results memory' state' hok => ?_, fun error x herror => ?_⟩
  · rintro ⟨results, x, hok⟩
    exact hroom.1 (hbalanced.hasRoom_of_runAll hsize hok)
  · obtain ⟨results, memory', hok, -⟩ := hbalanced.runAll_of_hasRoom hsize (hroom.2 h)
    exact ⟨results, _, hok⟩
  · obtain ⟨hstate, hagrees⟩ := hbalanced.agreesOutside_of_runAll hsize hok
    refine ⟨?_, hstate, hagrees⟩
    rintro before later rfl
    exact ⟨hcalls.exists_lastOpen, fun v hopen => getElem?_of_lastOpen hsize hok hopen⟩
  · have hnot : ¬HasRoom calls memory.size state.rsp.toNat := by
      intro h
      obtain ⟨results, memory', hok, -⟩ := hbalanced.runAll_of_hasRoom hsize h
      cases hok.symm.trans herror
    obtain ⟨before, v, later, results, y, bounds, rfl, hbefore, hfail⟩ :=
      hbalanced.runAll_of_not_hasRoom hsize hnot
    cases (runAll_of_error hbefore hfail later).symm.trans herror
    exact ⟨before, v, later, results, bounds, rfl, hbefore, hfail, rfl⟩

/-- A value stays on the stack while the slot below it is used twice. -/
def reusedSlot : List StackCall := [.push 1, .push 2, .pop, .push 3, .pop, .pop]

/-- With `rsp` two slots above the bottom of memory the calls fit, and one slot further down they
do not. -/
theorem reusedSlot_is_last_in_first_out :
    (∃ results memory',
      runAll reusedSlot (Memory.zeroed 24, ({} : State).set .rsp 16) =
          (.ok results, (memory', ({} : State).set .rsp 16)) ∧
        results[2]? = some (some 2) ∧ results[4]? = some (some 3) ∧ results[5]? = some (some 1) ∧
        memory'.bytes[16]? = some 0) ∧
      ¬∃ results x, runAll reusedSlot (Memory.zeroed 24, ({} : State).set .rsp 8) =
        (.ok results, x) := by
  have hcalls : WellBracketed reusedSlot := by decide
  have hdepth : depth reusedSlot = 2 := by decide
  have hsize : (Memory.zeroed 24).size < UInt64.size := by decide
  have hlow := @stack_is_last_in_first_out _ _ (({} : State).set .rsp 8) (by decide) hcalls hsize
  have hhigh := @stack_is_last_in_first_out _ _ (({} : State).set .rsp 16) (by decide) hcalls hsize
  rw [hdepth] at hlow hhigh
  constructor
  · obtain ⟨results, ⟨memory', state'⟩, hok⟩ := hhigh.1.2 (by decide)
    obtain ⟨hreturns, rfl, hagrees⟩ := hhigh.2.1 results memory' state' hok
    refine ⟨results, memory', hok, ?_, ?_, ?_, ?_⟩
    · exact (hreturns [.push 1, .push 2] _ rfl).2 2 ⟨[.push 1], [], rfl, by decide⟩
    · exact (hreturns [.push 1, .push 2, .pop, .push 3] _ rfl).2 3
        ⟨[.push 1, .push 2, .pop], [], rfl, by decide⟩
    · exact (hreturns [.push 1, .push 2, .pop, .push 3, .pop] _ rfl).2 1
        ⟨[], [.push 2, .pop, .push 3, .pop], rfl, by decide⟩
    · exact hagrees.getElem?_eq 16 (Or.inr (by decide))
  · exact fun h => absurd (hlow.1.1 h) (by decide)

end X64
