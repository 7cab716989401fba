import X64.Proofs.Fibonacci.Sample
import X64.Proofs.Launch.Function
import X64.Proofs.Machine.Frame

/-!
# The sample program computes the sequence

`fibonacci` keeps its argument, two neighbouring terms and a counter below the stack pointer. One
turn of its loop adds the terms and counts up (`block_body`), so after all turns the later term is
the one that `evaluate` gives (`block_loop`). `main` passes the argument and hands the result back.
-/

namespace X64.Fibonacci

open Function (update)

variable {q : Program} {top i line depth distance : Nat} {registers : Register → UInt64}
  {stack : List Slot} {offset : Int64} {v : UInt64} {x y : Int32}

/-! ## Instructions on local variables -/

theorem toUInt64_neg_ofNat (n : Nat) : (-Int64.ofNat n).toUInt64 = -UInt64.ofNat n := by
  rw [Int64.toUInt64_neg, Int64.toUInt64_ofNat']

theorem address_local (hbase : registers .rbp = below top depth)
    (hoffset : offset.toUInt64 = -UInt64.ofNat distance) (htop : depth + distance ≤ top) :
    registers .rbp + offset.toUInt64 = below top (depth + distance) := by
  rw [hbase, hoffset, ← UInt64.sub_eq_add_neg]
  exact below_sub htop

theorem reads_local (hbase : registers .rbp = below top depth)
    (hoffset : offset.toUInt64 = -UInt64.ofNat distance) (htop : depth + distance ≤ top)
    (hslot : ⟨depth + distance, .dword, wordOfInt32 x⟩ ∈ stack) :
    Snapshot.Reads ⟨i, update registers .rax v, stack⟩ q top (localAt offset) .dword
      (wordOfInt32 x) := by
  have hrbp : update registers .rax v .rbp = below top depth := by
    rw [Function.update_of_ne (by decide), hbase]
  exact Snapshot.reads_slot (s := ⟨i, update registers .rax v, stack⟩) (by decide) hslot
    (address_local hrbp hoffset htop)

theorem reads_dword {r : Register} (hr : r ≠ .rip) (hx : registers r = wordOfInt32 x) :
    Snapshot.Reads ⟨i, registers, stack⟩ q top (.register ⟨r, .dword⟩) .dword (wordOfInt32 x) := by
  have hread : Snapshot.Reads ⟨i, registers, stack⟩ q top (.register ⟨r, .dword⟩) .dword
      (Width.dword.truncate (registers r)) :=
    Snapshot.reads_register hr .dword
  rwa [hx, truncate_wordOfInt32] at hread

theorem reads_eax :
    Snapshot.Reads ⟨i, update registers .rax (wordOfInt32 x), stack⟩ q top
      (.register ⟨.rax, .dword⟩) .dword (wordOfInt32 x) :=
  reads_dword (by decide) (Function.update_self ..)

/-- A local variable is loaded to `eax`. -/
theorem load
    (hi : q.instructions[i]? = some ⟨.mov, [.register ⟨.rax, .dword⟩, localAt offset], line⟩)
    (hbase : registers .rbp = below top depth)
    (hoffset : offset.toUInt64 = -UInt64.ofNat distance) (htop : depth + distance ≤ top)
    (hslot : ⟨depth + distance, .dword, wordOfInt32 x⟩ ∈ stack) :
    Block q top 1 ⟨i, update registers .rax v, stack⟩
      ⟨i + 1, update registers .rax (wordOfInt32 x), stack⟩ := by
  have hmov := Block.mov (s := ⟨i, update registers .rax v, stack⟩) hi (by decide) (Or.inl rfl) rfl
    (reads_local hbase hoffset htop hslot)
  simpa using hmov

/-- A 32-bit integer is added to `eax`. -/
theorem add {src : Operand}
    (hi : q.instructions[i]? = some ⟨.add, [.register ⟨.rax, .dword⟩, src], line⟩)
    (hsrc : src.width?.getD .dword = .dword)
    (hread : Snapshot.Reads ⟨i, update registers .rax (wordOfInt32 x), stack⟩ q top src .dword
      (wordOfInt32 y)) :
    Block q top 1 ⟨i, update registers .rax (wordOfInt32 x), stack⟩
      ⟨i + 1, update registers .rax (wordOfInt32 (x + y)), stack⟩ := by
  have hadd := Block.binary (s := ⟨i, update registers .rax (wordOfInt32 x), stack⟩) hi rfl
    (by decide) (Or.inl rfl) hsrc reads_eax hread
  simpa [value_add_wordOfInt32] using hadd

/-- A store to a local variable changes only the slots of such variables, for all others lie above
them. -/
theorem store (x : Int32) {src : Operand} {vars vars' : List Slot}
    (hi : q.instructions[i]? = some ⟨.mov, [localAt offset, src], line⟩)
    (hmemory : src.isMemory = false) (hsrc : src.width?.getD .dword = .dword)
    (hread : Snapshot.Reads ⟨i, registers, vars ++ stack⟩ q top src .dword (wordOfInt32 x))
    (hbase : registers .rbp = below top depth)
    (hoffset : offset.toUInt64 = -UInt64.ofNat distance) (hdistance : 4 ≤ distance)
    (htop : depth + distance ≤ top) (hstack : ∀ u ∈ stack, u.depth ≤ depth)
    (hvars : ∀ u ∈ vars', u = ⟨depth + distance, .dword, wordOfInt32 x⟩ ∨
      u ∈ vars ∧ u.Apart ⟨depth + distance, .dword, wordOfInt32 x⟩) :
    Block q top 1 ⟨i, registers, vars ++ stack⟩ ⟨i + 1, registers, vars' ++ stack⟩ := by
  have hkept : ∀ u ∈ vars' ++ stack, u = ⟨depth + distance, .dword, wordOfInt32 x⟩ ∨
      u ∈ vars ++ stack ∧ u.Apart ⟨depth + distance, .dword, wordOfInt32 x⟩ := by
    intro u hu
    rcases List.mem_append.1 hu with hu | hu
    · rcases hvars u hu with h | ⟨hmem, hapart⟩
      · exact Or.inl h
      · exact Or.inr ⟨List.mem_append_left _ hmem, hapart⟩
    · have hle := hstack u hu
      have hapart : u.depth + 4 ≤ depth + distance := by omega
      exact Or.inr ⟨List.mem_append_right _ hu, Or.inl hapart⟩
  have hlength : 4 ≤ depth + distance := by omega
  exact Block.store ⟨depth + distance, .dword, wordOfInt32 x⟩
    (s := ⟨i, registers, vars ++ stack⟩) hi (by decide) hmemory hsrc hread (truncate_wordOfInt32 x)
    (address_local hbase hoffset htop) hlength htop hkept

/-! ## The loop -/

section

variable {m n previous current count : Int32} {directives : List Directive}

/-- The local variables of `fibonacci` behind a saved `rbp` at the given depth: the argument, two
neighbouring terms and the counter. -/
def locals (depth : Nat) (n previous current count : Int32) : List Slot :=
  [⟨depth + 4, .dword, wordOfInt32 n⟩, ⟨depth + 12, .dword, wordOfInt32 previous⟩,
    ⟨depth + 16, .dword, wordOfInt32 current⟩, ⟨depth + 20, .dword, wordOfInt32 count⟩]

/-- A snapshot inside `fibonacci`: the index, `eax` and the local variables, on top of the registers
and the slots that it does not change. -/
def inside (registers : Register → UInt64) (stack : List Slot) (i : Nat) (eax : UInt64)
    (vars : List Slot) : Snapshot :=
  ⟨i, update registers .rax eax, vars ++ stack⟩

/-- The comparison at the head of the loop. -/
theorem block_test (hbase : registers .rbp = below top depth) (htop : depth + 20 ≤ top)
    {target : Nat} (htarget : (if n ≤ count then 20 else 9) = target) :
    Block (sampleProgram m directives) top 3
      (inside registers stack 6 v (locals depth n previous current count))
      (inside registers stack target (wordOfInt32 count)
        (locals depth n previous current count)) := by
  let s := inside registers stack
  let vars := locals depth n previous current count
  have h₆ : Block (sampleProgram m directives) top 1 (s 6 v vars) (s 7 (wordOfInt32 count) vars) :=
    load rfl hbase (toUInt64_neg_ofNat 20) htop (by simp [vars, locals])
  have hread : (s 7 (wordOfInt32 count) vars).Reads (sampleProgram m directives) top (localAt (-4))
      .dword (wordOfInt32 n) :=
    reads_local hbase (toUInt64_neg_ofNat 4) (by omega)
      (by simp [vars, locals])
  have h₇ := Block.cmp_jumpIf (q := sampleProgram m directives) rfl rfl rfl rfl reads_eax hread
  rw [Alu.holds_greaterOrEqual_sub, signed_wordOfInt32, signed_wordOfInt32] at h₇
  simp only [decide_eq_true_eq, ← Int32.le_iff_toInt_le] at h₇
  rw [← htarget]
  exact h₆.trans h₇

/-- One turn of the loop behind the comparison. The earlier term is kept in a scratch variable while
the later one takes its place. -/
theorem block_body (hbase : registers .rbp = below top depth) (htop : depth + 20 ≤ top)
    (hstack : ∀ u ∈ stack, u.depth ≤ depth) :
    Block (sampleProgram m directives) top 11
      (inside registers stack 9 v (locals depth n previous current count))
      (inside registers stack 6 (wordOfInt32 (count + 1))
        (locals depth n current (previous + current) (count + 1))) := by
  have hrbp : ∀ eax, update registers .rax eax .rbp = below top depth := by
    intro eax
    rw [Function.update_of_ne (by decide), hbase]
  let q := sampleProgram m directives
  let s := inside registers stack
  let scratch : Slot := ⟨depth + 8, .dword, wordOfInt32 previous⟩
  let vars := locals depth n previous current count
  let moved := locals depth n current current count
  let added := locals depth n current (previous + current) count
  let counted := locals depth n current (previous + current) (count + 1)
  have h₉ : Block q top 1 (s 9 v vars) (s 10 (wordOfInt32 previous) vars) :=
    load rfl hbase (toUInt64_neg_ofNat 12) (by omega) (by simp [vars, locals])
  have h₁₀ : Block q top 1 (s 10 (wordOfInt32 previous) vars)
      (s 11 (wordOfInt32 previous) (scratch :: vars)) :=
    store previous rfl rfl rfl reads_eax (hrbp _) (toUInt64_neg_ofNat 8) (by omega)
      (by omega) hstack (by simp [vars, locals, Slot.Apart, Width.bytes, scratch])
  have h₁₁ : Block q top 1 (s 11 (wordOfInt32 previous) (scratch :: vars))
      (s 12 (wordOfInt32 current) (scratch :: vars)) :=
    load rfl hbase (toUInt64_neg_ofNat 16) (by omega) (by simp [vars, locals])
  have h₁₂ : Block q top 1 (s 12 (wordOfInt32 current) (scratch :: vars))
      (s 13 (wordOfInt32 current) (scratch :: moved)) :=
    store current rfl rfl rfl reads_eax (hrbp _) (toUInt64_neg_ofNat 12) (by omega)
      (by omega) hstack (by simp [vars, moved, locals, Slot.Apart, Width.bytes, scratch])
  have h₁₃ : Block q top 1 (s 13 (wordOfInt32 current) (scratch :: moved))
      (s 14 (wordOfInt32 previous) (scratch :: moved)) :=
    load rfl hbase (toUInt64_neg_ofNat 8) (by omega) (by simp [scratch])
  have h₁₄ : Block q top 1 (s 14 (wordOfInt32 previous) (scratch :: moved))
      (s 15 (wordOfInt32 (previous + current)) (scratch :: moved)) :=
    add rfl rfl (reads_local hbase (toUInt64_neg_ofNat 12) (by omega) (by simp [moved, locals]))
  have h₁₅ : Block q top 1 (s 15 (wordOfInt32 (previous + current)) (scratch :: moved))
      (s 16 (wordOfInt32 (previous + current)) added) :=
    store (previous + current) rfl rfl rfl reads_eax (hrbp _) (toUInt64_neg_ofNat 16) (by omega)
      (by omega) hstack (by simp [moved, added, locals, Slot.Apart, Width.bytes, scratch])
  have h₁₆ : Block q top 1 (s 16 (wordOfInt32 (previous + current)) added)
      (s 17 (wordOfInt32 count) added) :=
    load rfl hbase (toUInt64_neg_ofNat 20) (by omega) (by simp [added, locals])
  have h₁₇ : Block q top 1 (s 17 (wordOfInt32 count) added)
      (s 18 (wordOfInt32 (count + 1)) added) :=
    add rfl rfl (Snapshot.reads_immediate 1 .dword)
  have h₁₈ : Block q top 1 (s 18 (wordOfInt32 (count + 1)) added)
      (s 19 (wordOfInt32 (count + 1)) counted) :=
    store (count + 1) rfl rfl rfl reads_eax (hrbp _) (toUInt64_neg_ofNat 20) (by omega)
      (by omega) hstack (by simp [added, counted, locals, Slot.Apart, Width.bytes])
  have h₁₉ : Block q top 1 (s 19 (wordOfInt32 (count + 1)) counted)
      (s 6 (wordOfInt32 (count + 1)) counted) :=
    Block.jmp rfl
  have hkeep := h₉.trans (h₁₀.trans h₁₁)
  have hadd := h₁₂.trans (h₁₃.trans (h₁₄.trans h₁₅))
  have hcount := h₁₆.trans (h₁₇.trans (h₁₈.trans h₁₉))
  exact hkeep.trans (hadd.trans hcount)

theorem toInt_add_one (h : count < n) : (count + 1).toInt = count.toInt + 1 := by
  have hlt := Int32.lt_iff_toInt_lt.1 h
  have hle : n.toInt ≤ 2147483647 := n.toInt_le
  have hge : -2147483648 ≤ count.toInt := count.le_toInt
  rw [Int32.toInt_add]
  apply Int.bmod_eq_of_le <;> simp <;> omega

/-- The loop, up to the jump out of it. -/
theorem block_loop (m : Int32) (directives : List Directive)
    (hbase : registers .rbp = below top depth) (htop : depth + 20 ≤ top)
    (hstack : ∀ u ∈ stack, u.depth ≤ depth) (k : Nat) :
    ∀ v previous current count, (n.toInt - count.toInt).toNat = k →
      ∃ eax previous' count', Block (sampleProgram m directives) top (14 * k + 3)
        (inside registers stack 6 v (locals depth n previous current count))
        (inside registers stack 20 eax
          (locals depth n previous' (iterate k previous current) count')) := by
  -- On the number of turns that are left. The terms and the counter are new in each of them.
  induction k with
  | zero =>
    intro v previous current count hk
    have hle : n ≤ count := Int32.le_iff_toInt_le.2 (by omega)
    exact ⟨wordOfInt32 count, previous, count, block_test hbase htop (if_pos hle)⟩
  | succ k ih =>
    intro v previous current count hk
    have hlt : count < n := Int32.lt_iff_toInt_lt.2 (by omega)
    have hcount := toInt_add_one hlt
    obtain ⟨eax, previous', count', hloop⟩ := ih (wordOfInt32 (count + 1)) current
      (previous + current) (count + 1) (by omega)
    refine ⟨eax, previous', count', ?_⟩
    have hsteps : 14 * (k + 1) + 3 = 3 + (11 + (14 * k + 3)) := by omega
    rw [hsteps]
    exact (block_test hbase htop (if_neg (Int32.not_le.2 hlt))).trans
      ((block_body hbase htop hstack).trans hloop)

end

/-! ## The two functions -/

section

variable {m n : Int32} {directives : List Directive} {index : Nat}

/-- The locals of `fibonacci` get their first values. -/
theorem block_locals (hrbp : registers .rbp = below top depth)
    (hrdi : registers .rdi = wordOfInt32 n) (htop : depth + 20 ≤ top)
    (hstack : ∀ u ∈ stack, u.depth ≤ depth) :
    Block (sampleProgram m directives) top 4 ⟨2, registers, stack⟩
      ⟨6, registers, locals depth n 0 1 1 ++ stack⟩ := by
  let q := sampleProgram m directives
  let argument : Slot := ⟨depth + 4, .dword, wordOfInt32 n⟩
  let previous : Slot := ⟨depth + 12, .dword, wordOfInt32 0⟩
  let current : Slot := ⟨depth + 16, .dword, wordOfInt32 1⟩
  have h₂ : Block q top 1 ⟨2, registers, [] ++ stack⟩ ⟨3, registers, [argument] ++ stack⟩ :=
    store n rfl rfl rfl (reads_dword (show Register.rdi ≠ .rip by decide) hrdi) hrbp
      (toUInt64_neg_ofNat 4) (by omega) (by omega) hstack (by simp [argument])
  have h₃ : Block q top 1 ⟨3, registers, [argument] ++ stack⟩
      ⟨4, registers, [argument, previous] ++ stack⟩ :=
    store 0 rfl rfl rfl (Snapshot.reads_immediate 0 .dword) hrbp
      (toUInt64_neg_ofNat 12) (by omega) (by omega) hstack
      (by simp [argument, previous, Slot.Apart, Width.bytes])
  have h₄ : Block q top 1 ⟨4, registers, [argument, previous] ++ stack⟩
      ⟨5, registers, [argument, previous, current] ++ stack⟩ :=
    store 1 rfl rfl rfl (Snapshot.reads_immediate 1 .dword) hrbp
      (toUInt64_neg_ofNat 16) (by omega) (by omega) hstack
      (by simp [argument, previous, current, Slot.Apart, Width.bytes])
  have h₅ : Block q top 1 ⟨5, registers, [argument, previous, current] ++ stack⟩
      ⟨6, registers, locals depth n 0 1 1 ++ stack⟩ :=
    store 1 rfl rfl rfl (Snapshot.reads_immediate 1 .dword) hrbp
      (toUInt64_neg_ofNat 20) (by omega) (by omega) hstack
      (by simp [argument, previous, current, locals, Slot.Apart, Width.bytes])
  exact h₂.trans (h₃.trans (h₄.trans h₅))

/-- A call of `fibonacci`, from its first instruction to the one at the return index. Nothing that
the caller knows is lost but `eax`, which holds the term. -/
theorem block_fibonacci (hcalled : Called registers stack top depth index)
    (hrdi : registers .rdi = wordOfInt32 n) (htop : depth + 28 ≤ top) :
    Block (sampleProgram m directives) top (12 + 14 * additions n) ⟨0, registers, stack⟩
      ⟨index,
        update (update registers .rax (wordOfInt32 (evaluate n))) .rsp (below top (depth - 8)),
        stack⟩ := by
  let q := sampleProgram m directives
  let registers₁ := framed registers top depth
  let stack₁ := saved registers stack depth
  have hrbp : registers₁ .rbp = below top (depth + 8) := Function.update_self ..
  have hle := hcalled.depth_le_of_mem_saved
  have hstart : Block q top 2 ⟨0, registers, stack⟩ ⟨2, registers₁, stack₁⟩ :=
    Block.prologue rfl rfl hcalled (by omega)
  have hlocals : Block q top 4 ⟨2, registers₁, stack₁⟩
      ⟨6, registers₁, locals (depth + 8) n 0 1 1 ++ stack₁⟩ :=
    block_locals hrbp hrdi (by omega) hle
  obtain ⟨eax, previous, count, hloop⟩ :=
    block_loop m directives hrbp (by omega) hle (additions n) (registers₁ .rax) 0 1 1 rfl
  rw [inside, Function.update_eq_self] at hloop
  let vars := locals (depth + 8) n previous (evaluate n) count
  have hload : Block q top 1 (inside registers₁ stack₁ 20 eax vars)
      (inside registers₁ stack₁ 21 (wordOfInt32 (evaluate n)) vars) :=
    load rfl hrbp (toUInt64_neg_ofNat 16) (by omega) (by simp [vars, locals])
  have hend : Block q top 2 (inside registers₁ stack₁ 21 (wordOfInt32 (evaluate n)) vars)
      ⟨index, update (update (update registers₁ .rax (wordOfInt32 (evaluate n))) .rbp
        (registers .rbp)) .rsp (below top (depth - 8)), stack⟩ :=
    Block.epilogue rfl rfl hcalled rfl (List.subset_append_right _ _)
  have hregisters : update (update (update registers₁ .rax (wordOfInt32 (evaluate n))) .rbp
      (registers .rbp)) .rsp (below top (depth - 8)) =
        update (update registers .rax (wordOfInt32 (evaluate n))) .rsp (below top (depth - 8)) := by
    funext r
    cases r <;> rfl
  have hsteps : 12 + 14 * additions n = 2 + (4 + (14 * additions n + 3 + (1 + 2))) := by omega
  rw [hregisters] at hend
  rw [hsteps]
  exact hstart.trans (hlocals.trans (hloop.trans (hload.trans hend)))

/-- `main` reserves room for its own variables, of which none is read, and calls `fibonacci` with
its argument. -/
theorem block_pass (hrsp : registers .rsp = below top depth)
    (hrbp : registers .rbp = below top depth) (hstack : ∀ u ∈ stack, u.depth ≤ depth)
    (htop : depth + 24 ≤ top) :
    Block (sampleProgram n directives) top 4 ⟨25, registers, stack⟩
      ⟨0, update (update registers .rdi (wordOfInt32 n)) .rsp (below top (depth + 24)),
        ⟨depth + 24, .qword, UInt64.ofNat 29⟩ :: stack⟩ := by
  let q := sampleProgram n directives
  let registers₁ := update registers .rsp (below top (depth + 16))
  let registers₂ := update registers₁ .rdi (wordOfInt32 n)
  have h₂₅ : Block q top 1 ⟨25, registers, stack⟩ ⟨26, registers₁, stack⟩ :=
    Block.reserve rfl rfl hrsp (by omega)
  have h₂₆ : Block q top 1 ⟨26, registers₁, [] ++ stack⟩ ⟨27, registers₁, [] ++ stack⟩ :=
    store 0 rfl rfl rfl (Snapshot.reads_immediate 0 .dword) hrbp (toUInt64_neg_ofNat 4) (by omega)
      (by omega) hstack (by simp)
  have h₂₇ : Block q top 1 ⟨27, registers₁, stack⟩ ⟨28, registers₂, stack⟩ := by
    have hmov : Block q top 1 ⟨27, registers₁, stack⟩ ⟨28, update registers₁ .rdi
        (Width.dword.truncate (Width.dword.truncate n.toInt64.toUInt64)), stack⟩ :=
      Block.mov rfl (by decide) (Or.inl rfl) rfl (Snapshot.reads_immediate n.toInt64 .dword)
    rwa [truncate_toInt64, truncate_wordOfInt32] at hmov
  have h₂₈ : Block q top 1 ⟨28, registers₂, stack⟩
      ⟨0, update registers₂ .rsp (below top (depth + 24)),
        ⟨depth + 24, .qword, UInt64.ofNat 29⟩ :: stack⟩ := by
    refine Block.call rfl rfl (by omega) fun _ => Slot.eq_or_apart_of_mem_cons ?_
    exact fun u hu => Nat.add_le_add_right ((hstack u hu).trans (Nat.le_add_right _ 16)) 8
  have hregisters : update registers₂ .rsp (below top (depth + 24)) =
      update (update registers .rdi (wordOfInt32 n)) .rsp (below top (depth + 24)) := by
    funext r
    cases r <;> rfl
  rw [hregisters] at h₂₈
  exact h₂₅.trans (h₂₆.trans (h₂₇.trans h₂₈))

/-- A call of `main`, which returns what `fibonacci` gives for the argument. -/
theorem block_main (hcalled : Called registers stack top depth index) (htop : depth + 60 ≤ top) :
    Block (sampleProgram n directives) top (21 + 14 * additions n) ⟨23, registers, stack⟩
      ⟨index,
        update (update (update registers .rdi (wordOfInt32 n)) .rax (wordOfInt32 (evaluate n))) .rsp
          (below top (depth - 8)),
        stack⟩ := by
  let q := sampleProgram n directives
  let registers₁ := framed registers top depth
  let registers₂ := update (update registers₁ .rdi (wordOfInt32 n)) .rsp (below top (depth + 32))
  let registers₃ := update (update registers₂ .rax (wordOfInt32 (evaluate n))) .rsp
    (below top (depth + 8 + 16))
  let registers₄ := update registers₃ .rsp (below top (depth + 8))
  let stack₁ := saved registers stack depth
  let stack₂ : List Slot := ⟨depth + 32, .qword, UInt64.ofNat 29⟩ :: stack₁
  have hle := hcalled.depth_le_of_mem_saved
  have hle₂ : ∀ u ∈ stack₂, u.depth ≤ depth + 32 := by
    intro u hu
    rcases List.mem_cons.1 hu with rfl | hu
    · exact le_rfl
    · exact (hle u hu).trans (by omega)
  have hinner : Called registers₂ stack₂ top (depth + 32) 29 :=
    ⟨Function.update_self .., List.mem_cons_self .., hle₂⟩
  have hstart : Block q top 2 ⟨23, registers, stack⟩ ⟨25, registers₁, stack₁⟩ :=
    Block.prologue rfl rfl hcalled (by omega)
  have hpass : Block q top 4 ⟨25, registers₁, stack₁⟩ ⟨0, registers₂, stack₂⟩ :=
    block_pass rfl rfl hle (by omega)
  have hcall : Block q top (12 + 14 * additions n) ⟨0, registers₂, stack₂⟩
      ⟨29, registers₃, stack₂⟩ :=
    block_fibonacci hinner rfl (by omega)
  have hrelease : Block q top 1 ⟨29, registers₃, stack₂⟩ ⟨30, registers₄, stack₂⟩ :=
    Block.release rfl (show (16 : Int64).toUInt64 = UInt64.ofNat 16 from rfl) rfl (by omega)
  have hend : Block q top 2 ⟨30, registers₄, stack₂⟩
      ⟨index, update (update registers₄ .rbp (registers .rbp)) .rsp (below top (depth - 8)),
        stack⟩ :=
    Block.epilogue rfl rfl hcalled rfl (List.subset_cons_self ..)
  have hregisters : update (update registers₄ .rbp (registers .rbp)) .rsp (below top (depth - 8)) =
      update (update (update registers .rdi (wordOfInt32 n)) .rax (wordOfInt32 (evaluate n))) .rsp
        (below top (depth - 8)) := by
    funext r
    cases r <;> rfl
  have hsteps : 21 + 14 * additions n = 2 + (4 + (12 + 14 * additions n + (1 + 2))) := by omega
  rw [hregisters] at hend
  rw [hsteps]
  exact hstart.trans (hpass.trans (hcall.trans (hrelease.trans hend)))

end

/-! ## Launches -/

theorem hasStart_sampleProgram (n : Int32) (directives : List Directive) :
    (sampleProgram n directives).hasStart = false := by
  have hstart : (sampleLabels.get? Program.startLabel).isSome = false := by decide +kernel
  exact hstart

theorem label?_main (n : Int32) (directives : List Directive) :
    (sampleProgram n directives).label? "main" = some 23 := by
  have hmain : sampleLabels.get? "main" = some 23 := by decide +kernel
  exact hmain

theorem entryLabel_sampleProgram {options : LaunchOptions} (hentry : options.entry = none)
    (n : Int32) (directives : List Directive) :
    (sampleProgram n directives).entryLabel options = .ok "main" := by
  have hfind : (Program.defaultEntries.find? fun name =>
      ((sampleProgram n directives).label? name).isSome) = some "main" := by
    rw [Program.defaultEntries, List.find?_cons_of_pos (by rw [label?_main]; rfl)]
  simp only [Program.entryLabel, hentry, hfind]

/-- The launch of the sample program agrees with the evaluator, whatever the argument is and also
when the terms wrap around. It takes 25 steps and 14 more for each addition. With a smaller limit it
spends all steps of that. The program uses 68 bytes of memory. -/
theorem launch_sample (n : Int32) (options : LaunchOptions) (hentry : options.entry = none)
    (hmemory : 68 ≤ options.memorySize) (htop : options.memorySize < UInt64.size) :
    (25 + 14 * (n.toInt - 1).toNat ≤ options.maxSteps →
        ∃ c, launch (sample n) options = .ok c ∧
          c.exitStatus = (evaluate n).toUInt32.toUInt64 ∧
            c.steps = 25 + 14 * (n.toInt - 1).toNat ∧ c.stdout = #[] ∧ c.stderr = #[]) ∧
      (options.maxSteps < 25 + 14 * (n.toInt - 1).toNat →
        launch (sample n) options = .error (.machine (.stepLimit options.maxSteps))) := by
  obtain ⟨directives, hp⟩ := ofSource_sample n
  let p := sampleProgram n directives
  have hname : View.ofName? "main".toList = none := by decide +kernel
  have hcalled : Called (p.calledSnapshot options 23).registers (p.calledSnapshot options 23).stack
      options.memorySize 8 33 :=
    ⟨rfl, List.mem_cons_self .., by simp [Program.calledSnapshot]⟩
  have hmain : Block p options.memorySize (21 + 14 * additions n) (p.calledSnapshot options 23) _ :=
    block_main hcalled hmemory
  have hlaunch := launch_of_block hp (hasStart_sampleProgram n directives)
    (entryLabel_sampleProgram hentry n directives) (label?_main n directives) hname (by omega) htop
    (show 32 + 4 ≤ UInt64.size by decide) hmain rfl
  have hsteps : 21 + 14 * additions n + 4 = 25 + 14 * (n.toInt - 1).toNat := by
    rw [additions]
    omega
  rw [hsteps] at hlaunch
  exact hlaunch

theorem launch_sample_seven :
    (∃ c, launch (sample 7) { memorySize := 68, maxSteps := 109 } = .ok c ∧ c.exitStatus = 13 ∧
        c.steps = 109 ∧ c.stdout = #[] ∧ c.stderr = #[]) ∧
      launch (sample 7) { memorySize := 68, maxSteps := 108 } =
        .error (.machine (.stepLimit 108)) := by
  refine ⟨?_, ?_⟩
  · exact (launch_sample 7 { memorySize := 68, maxSteps := 109 } rfl (by decide) (by decide)).1
      (by decide)
  · exact (launch_sample 7 { memorySize := 68, maxSteps := 108 } rfl (by decide) (by decide)).2
      (by decide)

end X64.Fibonacci
