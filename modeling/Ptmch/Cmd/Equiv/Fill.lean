import Ptmch.Cmd.Equiv.Line

/-!
# Correctness of `cmdMemFill`

The loops of `cmd_mem_fill` write one byte at each address from `addr` on.  Their counter is an
`int`, but the comparison with `size` makes it unsigned and the additions wrap, so a loop makes
`size` turns for every `size` up to `2 ^ 32 - 1`, and turn `k` writes at `addr + k`.
-/

namespace Ptmch.Cmd

open CLib

/-! ### The memory on the bus -/

/-- The bytes of a value, the low one first. -/
def Width.bytes (w : Width) (value : ℕ) : List Byte :=
  (List.range (w.bits / 8)).map fun i => BitVec.ofNat 8 (value / 2 ^ (8 * i))

/-- Memory after an effect.  Only a write changes it. -/
def Effect.apply (m : Mem) : Effect → Mem
  | .iowr w addr value => store m addr (w.bytes value)
  | _ => m

/-- Memory after these effects. -/
def memAfter (m : Mem) (effects : List Effect) : Mem := effects.foldl Effect.apply m

theorem memAfter_cons (m : Mem) (e : Effect) (effects : List Effect) :
    memAfter m (e :: effects) = memAfter (e.apply m) effects := rfl

/-- What is no access leaves memory as it is. -/
theorem memAfter_accesses (m : Mem) (effects : List Effect) :
    memAfter m (accesses effects) = memAfter m effects := by
  induction effects generalizing m with
  | nil => rfl
  | cons e effects ih =>
    by_cases he : e.isAccess = true
    · rw [accesses, List.filter_cons_of_pos he, memAfter_cons, memAfter_cons]
      exact ih _
    · rw [accesses, List.filter_cons_of_neg he, memAfter_cons]
      cases e with
      | printf format args => exact ih m
      | fflush => exact ih m
      | call func options => exact ih m
      | _ => exact absurd rfl he

/-- A write of a byte. -/
theorem apply_iowr_w8 (m : Mem) (addr : Ptr) (value : ℕ) :
    (Effect.iowr .w8 addr value).apply m = Function.update m addr (BitVec.ofNat 8 value) := by
  have hbytes : Width.w8.bytes value = [BitVec.ofNat 8 value] := by simp [Width.bytes, Width.bits]
  rw [Effect.apply, hbytes]
  rfl

/-! ### The loop -/

/-- The writes of bytes at `n` addresses from `addr` on. -/
def byteWrites (n : ℕ) (addr : Ptr) (value : ℕ → ℕ) : List Effect :=
  (List.range n).map fun k => .iowr .w8 (addr + BitVec.ofNat 32 k) (value k)

variable {n : ℕ} {addr : Ptr} {value : ℕ → ℕ}

theorem byteWrites_succ : byteWrites (n + 1) addr value =
    byteWrites n addr value ++ [.iowr .w8 (addr + BitVec.ofNat 32 n) (value n)] := by
  rw [byteWrites, List.range_succ, List.map_append]
  rfl

/-- Every byte that is written is found in memory, and the others are as they were. -/
theorem memAfter_byteWrites (hn : n ≤ 2 ^ 32) (m : Mem) :
    (∀ k < n, memAfter m (byteWrites n addr value) (addr + BitVec.ofNat 32 k) =
      BitVec.ofNat 8 (value k)) ∧
    ∀ x, (∀ k < n, x ≠ addr + BitVec.ofNat 32 k) →
      memAfter m (byteWrites n addr value) x = m x := by
  induction n with
  | zero => exact ⟨fun k hk => absurd hk (Nat.not_lt_zero k), fun x _ => rfl⟩
  | succ n ih =>
    obtain ⟨hwritten, hkept⟩ := ih (Nat.le_of_succ_le hn)
    have hstep : memAfter m (byteWrites (n + 1) addr value) =
        Function.update (memAfter m (byteWrites n addr value)) (addr + BitVec.ofNat 32 n)
          (BitVec.ofNat 8 (value n)) := by
      rw [byteWrites_succ, memAfter, List.foldl_append, ← memAfter]
      exact apply_iowr_w8 _ _ _
    rw [hstep]
    refine ⟨fun k hk => ?_, fun x hx => ?_⟩
    · by_cases hlast : k = n
      · rw [hlast, Function.update_self]
      · have hne : addr + BitVec.ofNat 32 k ≠ addr + BitVec.ofNat 32 n := by
          rw [Ne, add_ofNat_inj (by omega) (by omega)]
          exact hlast
        rw [Function.update_of_ne hne]
        exact hwritten k (by omega)
    · rw [Function.update_of_ne (hx n (Nat.lt_succ_self n))]
      exact hkept x fun k hk => hx k (Nat.lt_succ_of_lt hk)

/-- A byte is aligned everywhere. -/
theorem iowrDirect_w8 (base : Ptr) (offset data : BitVec 32) :
    iowrDirect .w8 base offset data = .iowr .w8 (base + offset) (data.toNat % 256) := by
  have halign : Width.w8.Aligned (base + offset) := Nat.mod_one _
  rw [iowrDirect, if_pos halign]
  rfl

/-- **The loop** makes one write for each value of the counter below `size`. -/
theorem fillFrom_eq (data : BitVec 32 → BitVec 32) (addr size i : BitVec 32) :
    fillFrom data addr size i = (List.range' i.toNat (size.toNat - i.toNat)).map fun k =>
      .iowr .w8 (addr + BitVec.ofNat 32 k) ((data (BitVec.ofNat 32 k)).toNat % 256) := by
  induction i using fillFrom.induct size with
  | case1 i h ih =>
    have hlt : i.toNat < size.toNat := h
    have hsize := size.isLt
    have hnext : (i + 1).toNat = i.toNat + 1 :=
      Nat.mod_eq_of_lt (Nat.lt_of_le_of_lt hlt hsize)
    have hturns : size.toNat - i.toNat = size.toNat - (i.toNat + 1) + 1 := by omega
    have hi : BitVec.ofNat 32 i.toNat = i := by rw [BitVec.ofNat_toNat, BitVec.setWidth_eq]
    rw [fillFrom, if_pos h, ih, iowrDirect_w8, hnext, hturns, List.range'_succ, List.map_cons, hi]
  | case2 i h =>
    have hle : size.toNat ≤ i.toNat := Nat.le_of_not_lt h
    rw [fillFrom, if_neg h, Nat.sub_eq_zero_of_le hle]
    rfl

theorem fillFrom_zero (data : BitVec 32 → BitVec 32) (addr size : BitVec 32) :
    fillFrom data addr size 0 =
      byteWrites size.toNat addr fun k => (data (BitVec.ofNat 32 k)).toNat % 256 := by
  rw [fillFrom_eq, byteWrites, List.range_eq_range']
  rfl

theorem fillIncrement_eq (data addr size : BitVec 32) :
    fillIncrement data addr size =
      byteWrites size.toNat addr fun k => (data.toNat + k) % 256 := by
  have hvalue : ∀ k, (data + BitVec.ofNat 32 k).toNat % 256 = (data.toNat + k) % 256 := by
    intro k
    rw [BitVec.toNat_add, BitVec.toNat_ofNat]
    omega
  rw [fillIncrement, fillFrom_zero]
  simp only [hvalue]

theorem fillFixed_eq (data addr size : BitVec 32) :
    fillFixed data addr size = byteWrites size.toNat addr fun _ => data.toNat % 256 :=
  fillFrom_zero _ addr size

/-! ### The handler -/

/-- The accesses are `n` writes of bytes, at distinct addresses from `addr` on.  They leave these
bytes in memory and no other byte changes. -/
structure Fills (effects : List Effect) (n : ℕ) (addr : Ptr) (value : ℕ → ℕ) : Prop where
  writes : accesses effects = byteWrites n addr value
  distinct : ((List.range n).map fun k => addr + BitVec.ofNat 32 k).Nodup
  filled : ∀ m, ∀ k < n, (memAfter m effects (addr + BitVec.ofNat 32 k)).toNat = value k
  kept : ∀ m x, (∀ k < n, x ≠ addr + BitVec.ofNat 32 k) → memAfter m effects x = m x

theorem fills_of_writes {effects : List Effect} (hn : n ≤ 2 ^ 32) (hvalue : ∀ k, value k < 256)
    (hwrites : accesses effects = byteWrites n addr value) : Fills effects n addr value := by
  have hmem : ∀ m, memAfter m effects = memAfter m (byteWrites n addr value) := fun m => by
    rw [← hwrites, memAfter_accesses]
  refine ⟨hwrites, ?_, fun m k hk => ?_, fun m x hx => ?_⟩
  · refine (List.nodup_map_iff_inj_on List.nodup_range).mpr fun i hi j hj heq => ?_
    rw [List.mem_range] at hi hj
    exact (add_ofNat_inj (by omega) (by omega)).mp heq
  · rw [hmem, (memAfter_byteWrites hn m).1 k hk, BitVec.toNat_ofNat]
    exact Nat.mod_eq_of_lt (hvalue k)
  · rw [hmem]
    exact (memAfter_byteWrites hn m).2 x hx

/-- The format of `cmd_mem_fill`. -/
def fillFormat : List Directive := [.d, .space, .lx, .space, .lx, .space, .lx]

/-- Either four arguments are parsed or fewer are counted. -/
theorem sscanf_fillFormat (options : List Byte) :
    (∃ type data addr size, sscanf options fillFormat = (4, [type, data, addr, size])) ∨
      (sscanf options fillFormat).1 < 4 := by
  obtain ⟨hcount, hlen⟩ := sscanfFrom_count [] options fillFormat
  have hfour : conversions fillFormat = 4 := by decide
  rw [hfour, List.length_nil, Nat.zero_add] at hlen
  change (sscanf options fillFormat).2.length ≤ 4 at hlen
  change (sscanf options fillFormat).1 = (sscanf options fillFormat).2.length ∨
    (sscanf options fillFormat).1 = -1 at hcount
  by_cases hlt : (sscanf options fillFormat).1 < 4
  · exact Or.inr hlt
  · have hargs : (sscanf options fillFormat).2.length = 4 := by omega
    obtain ⟨type, data, addr, size, hlist⟩ := List.length_eq_four.mp hargs
    exact Or.inl ⟨type, data, addr, size, Prod.ext (by omega) hlist⟩

/-- The accesses of the handler, by type. -/
theorem accesses_cmdMemFill (pf : Platform) {options : List Byte} {type data addr size : BitVec 32}
    (hscan : sscanf options fillFormat = (4, [type, data, addr, size])) :
    accesses (cmdMemFill pf options).2 =
      if type = 0 then fillIncrement data addr size
      else if type = 1 then fillFixed data addr size
      else [] := by
  have hscan : sscanf options [.d, .space, .lx, .space, .lx, .space, .lx] =
      (4, [type, data, addr, size]) := hscan
  have hinc : accesses (fillIncrement data addr size) = fillIncrement data addr size :=
    accesses_fillFrom ..
  have hfix : accesses (fillFixed data addr size) = fillFixed data addr size :=
    accesses_fillFrom ..
  unfold cmdMemFill
  simp only [hscan, List.getD_cons_zero, List.getD_cons_succ, Int.lt_irrefl, if_false]
  split_ifs with h0 h1
  · exact hinc
  · exact hfix
  · rfl

/-- Where fewer than four arguments are counted there is no access. -/
theorem accesses_cmdMemFill_of_few (pf : Platform) {options : List Byte}
    (hfew : (sscanf options fillFormat).1 < 4) : accesses (cmdMemFill pf options).2 = [] := by
  have hfew : (sscanf options [.d, .space, .lx, .space, .lx, .space, .lx]).1 < 4 := hfew
  simp only [cmdMemFill, if_pos hfew]
  rfl

/-- **Memory fill.**  Where four arguments are parsed and the type is 0 or 1, the handler writes
`size` bytes from `addr` on: with type 0 those that count up from `data`, with type 1 `data` itself.
In all other cases it makes no access. -/
theorem cmdMemFill_fills (pf : Platform) (options : List Byte) :
    (∃ type data addr size, sscanf options fillFormat = (4, [type, data, addr, size]) ∧
      (type = 0 → Fills (cmdMemFill pf options).2 size.toNat addr fun k => (data.toNat + k) % 256) ∧
      (type = 1 → Fills (cmdMemFill pf options).2 size.toNat addr fun _ => data.toNat % 256) ∧
      (type ≠ 0 → type ≠ 1 → accesses (cmdMemFill pf options).2 = [])) ∨
    (sscanf options fillFormat).1 < 4 ∧ accesses (cmdMemFill pf options).2 = [] := by
  rcases sscanf_fillFormat options with ⟨type, data, addr, size, hscan⟩ | hfew
  · left
    have haccesses := accesses_cmdMemFill pf hscan
    refine ⟨type, data, addr, size, hscan, fun h0 => ?_, fun h1 => ?_, fun h0 h1 => ?_⟩
    · refine fills_of_writes size.isLt.le (fun k => Nat.mod_lt _ (by decide)) ?_
      rw [haccesses, if_pos h0, fillIncrement_eq]
    · have h0 : type ≠ 0 := h1 ▸ (by decide)
      refine fills_of_writes size.isLt.le (fun k => Nat.mod_lt _ (by decide)) ?_
      rw [haccesses, if_neg h0, if_pos h1, fillFixed_eq]
    · rw [haccesses, if_neg h0, if_neg h1]
  · exact Or.inr ⟨hfew, accesses_cmdMemFill_of_few pf hfew⟩

/-- The options of a fill whose bytes and addresses both run over. -/
def wrapOptions : List Byte := ascii " 0 1fe fffffffe 4".toList

/-- It writes FE, FF, 00 and 01 to the last two addresses and the first two. -/
theorem cmdMemFill_wrapOptions :
    Fills (cmdMemFill ⟨true, fun _ _ => 0⟩ wrapOptions).2 4 0xfffffffe
      (fun k => (0x1fe + k) % 256) ∧
    accesses (cmdMemFill ⟨true, fun _ _ => 0⟩ wrapOptions).2 =
      [.iowr .w8 0xfffffffe 0xfe, .iowr .w8 0xffffffff 0xff, .iowr .w8 0 0x00,
        .iowr .w8 1 0x01] := by
  have hscan : sscanf wrapOptions fillFormat = (4, [0, 0x1fe, 0xfffffffe, 4]) := by decide +kernel
  rcases cmdMemFill_fills ⟨true, fun _ _ => 0⟩ wrapOptions with
    ⟨type, data, addr, size, hparsed, hinc, -⟩ | ⟨hfew, -⟩
  · rw [hscan] at hparsed
    obtain ⟨-, hargs⟩ := Prod.mk.inj hparsed
    simp only [List.cons.injEq, and_true] at hargs
    obtain ⟨rfl, rfl, rfl, rfl⟩ := hargs
    refine ⟨hinc rfl, ?_⟩
    rw [(hinc rfl).writes]
    decide
  · rw [hscan] at hfew
    exact absurd hfew (by decide)

end Ptmch.Cmd
