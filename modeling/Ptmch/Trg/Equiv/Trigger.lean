import Ptmch.Trg.Equiv.Pipeline

/-!
# When `TRG_PLS` rises

* `noFalseTrigger_iff`: a well-formed run is free of false triggers exactly if in no frame the
  opcode of an earlier frame comes back to the output (`Bus.StaleRise`).
* `firesOnTime_iff`: a frame with a trigger opcode gives its pulse at the fifth edge of `CLK160M`
  after its eighth bit exactly if no earlier opcode fires in it first and no earlier pulse still
  runs.

The cause is one: `ar_inst_chk` is not under `c_spi_reset_n`, so a frame clears the pipeline but not
its source, and the opcode of the last complete frame runs through the pipeline once more.
-/

namespace Ptmch

open Machine Trg

/-! ### The output of a frame -/

namespace Frame

variable {f : Frame} {v x : BitVec 8} {cs : Bool} {t : ℕ}

theorem pulse_of_fires {g p : ℕ} (hg : f.firesAt v = some g) :
    f.pulse v p = if g ≤ f.clks + 1 then f.clks - g else p + f.clks := by
  rw [pulse, hg]

/-- **The rises that are false**: the output for `x` rises, though the frame has not sent `x`,
exactly where the opcode of an earlier frame comes back. -/
theorem falseRise_iff (hf : f.Paced) (h : cs = false → f.lows = f.clks) (hx : IsTrigger x)
    (p : ℕ) :
    ((f.tick cs).Shows v p x ∧ ¬ f.Shows v p x) ∧ ¬ (f.Complete ∧ opcode f.bits = x) ↔
      x = v ∧ f.FiresStale v ∧ ¬ (f.Complete ∧ opcode f.bits = v) ∧
        f.clks + 1 = f.staleRiseAt p := by
  have hle := hf.lows_le
  have hsetup := hf.setup
  have hne := @Complete.ne_nil f
  have hge := hf.clksAt8_ge
  have hedge := instEdge_iff (v := v) hf
  have hpulse := pulse_tick (v := v) hf h p
  have h0 : x ≠ 0 := fun h => not_isTrigger_zero (h ▸ hx)
  unfold Shows
  by_cases hu : (f.tick cs).Untouched (f.clks + 1)
  · -- nothing is shown but `v`, and the counter does not restart
    obtain ⟨hu0, -⟩ := gate_of_untouched hu
    have hquiet : ¬ (f.mch v f.clks && !f.mchSft2 v f.clks) = true := by
      rw [hedge]
      rintro ⟨g, hg, hcl⟩
      have h9 := firesAt_ge hf hg
      rcases firesAt_cases hg with ⟨hs, -⟩ | ⟨-, hc, -⟩
      · exact not_untouched_iff.mpr ⟨by omega, hs.2.1⟩ hu0
      · exact hf.not_complete hu0 hc
    have hv : f.chk3d v f.clks = v := by rw [chk3d, if_pos hu0]
    have hv' : (f.tick cs).chk3d v (f.clks + 1) = v := by rw [chk3d, if_pos hu]
    rw [tick_clks, hv, hv', hpulse, if_neg hquiet]
    constructor
    · rintro ⟨⟨⟨hxv, hlt⟩, hno⟩, -⟩
      exact absurd ⟨hxv, by omega⟩ hno
    · rintro ⟨-, ⟨-, hl, -⟩, -, hr⟩
      have h6 : 6 ≤ f.clks + 1 := by
        rw [hr, staleRiseAt]
        split_ifs <;> omega
      exact absurd hu0 (not_untouched_iff.mpr ⟨by omega, hl⟩)
  obtain ⟨h3, hpos⟩ := not_untouched_iff.mp hu
  have hw : (f.tick cs).window = f.window := window_tick h (Nat.le_of_succ_le_succ h3)
  have hl : 1 ≤ f.lows := one_le_lows_of_tick h (by omega) hpos
  have hw2 : 1 ≤ f.window ∧ f.window ≤ 2 := ⟨one_le_window hl, f.window_le_two⟩
  have hwc : f.Complete → f.window = 2 := hf.window_of_complete
  rw [tick_clks, hpulse, chk3d_tick_of_touched h hu]
  by_cases hs : f.FiresStale v
  · have hg : f.firesAt v = some (8 + f.window) := by rw [firesAt, if_pos hs]
    rw [pulse_of_fires hg]
    simp only [hedge, hg, Option.some.injEq, exists_eq_left']
    have hov : ¬ f.Overtakes v := hs.2.2
    have hold : 6 + f.window ≤ f.clks → ¬ (f.Complete ∧ f.clksAt8 + 4 ≤ f.clks) →
        f.chk3d v f.clks = v := by
      intro h6 hc
      have hu : ¬ f.Untouched f.clks := not_untouched_iff.mpr ⟨by omega, hl⟩
      rw [chk3d, if_neg hu, if_neg (by omega), if_neg hc, if_neg hov]
    have hold0 : f.clks + 1 = 6 + f.window → f.chk3d v f.clks = 0 := by
      intro h6
      have hu : ¬ f.Untouched f.clks := not_untouched_iff.mpr ⟨by omega, hl⟩
      rw [chk3d, if_neg hu, if_pos (by omega)]
    have hr : f.staleRiseAt p = if p + 6 + f.window < 15 then 6 + f.window else 7 + f.window := rfl
    have hov' : f.Complete → f.clksAt8 = 5 → opcode f.bits = v := by
      intro hc h5
      by_contra hne
      exact hov ⟨hc, h5, hne⟩
    obtain h1 | h1 | h1 | h1 : f.clks + 1 < 6 + f.window ∨ f.clks + 1 = 6 + f.window ∨
        f.clks + 1 = 7 + f.window ∨ 8 + f.window ≤ f.clks + 1 := by omega
    · -- zeros are shown
      grind -ext
    · -- the old opcode is back, but the counter has not been restarted
      grind -ext
    · -- the counter has just been restarted for the first time
      grind -ext
    · -- the output is high already
      grind -ext
  · grind -ext [FiresStale]

end Frame

theorem Trg.trgPls_eq (s : Trg) (i : Fin 2) :
    s.trgPls i = (decide (s.srInstChk3d = trgOpcode i) && s.nTrgPls) := by
  match i with
  | 0 => by_cases h : s.srInstChk3d = pPageprogram <;> simp [trgPls, trgOpcode, h]
  | 1 => by_cases h : s.srInstChk3d = pWriteenable <;> simp [trgPls, trgOpcode, h]

namespace Refines

variable {b : Bus} {s : Trg} {e : Event}

theorem trgPls_iff (h : Refines b s) (i : Fin 2) :
    s.trgPls i = true ↔ b.frame.Shows b.stale (pulseCount b.earlier) (trgOpcode i) := by
  have hp := h.plsCnt
  unfold Bus.pulse pulseCount at hp
  rw [trgPls_eq, Bool.and_eq_true, decide_eq_true_eq, nTrgPls_eq, decide_eq_true_eq, h.chk3d, hp]
  unfold Frame.Shows Bus.stale
  exact and_congr_right fun _ => by omega

end Refines

/-! ### No false trigger -/

/-- `TRG_PLS[i]` changes from 0 to 1. -/
def Sys.Rises (y : Sys) (e : Event) (i : Fin 2) : Prop :=
  y.trg.trgPls i = false ∧ (y.step e).trg.trgPls i = true

instance (y : Sys) (e : Event) (i : Fin 2) : Decidable (y.Rises e i) :=
  inferInstanceAs (Decidable (_ ∧ _))

/-- Whenever `TRG_PLS[i]` rises, the current frame has had eight bits and they are its opcode. -/
def NoFalseTrigger (es : List Event) : Prop :=
  Along Sys.step (fun y e => ∀ i, y.Rises e i →
    y.bus.frame.Complete ∧ opcode y.bus.frame.bits = trgOpcode i) Sys.start es

instance (es : List Event) : Decidable (NoFalseTrigger es) :=
  inferInstanceAs (Decidable (Along _ _ _ _))

/-- At this edge of `CLK160M` the opcode of an earlier frame raises the output, and the current
frame has not sent the same opcode yet. -/
def Bus.StaleRise (b : Bus) (e : Event) : Prop :=
  e = .clk160m ∧ b.frame.FiresStale b.stale ∧
  ¬ (b.frame.Complete ∧ opcode b.frame.bits = b.stale) ∧
  b.frame.clks + 1 = b.frame.staleRiseAt (pulseCount b.earlier)

instance (b : Bus) (e : Event) : Decidable (b.StaleRise e) :=
  inferInstanceAs (Decidable (_ ∧ _))

namespace Refines

variable {b : Bus} {s : Trg} {e : Event}

/-- `TRG_PLS` changes at edges of `CLK160M` only. -/
theorem trgPls_step (h : Refines b s) (hok : b.Allowed Rules.bench e) (he : e ≠ .clk160m)
    (i : Fin 2) : (s.step e).trgPls i = s.trgPls i := by
  have key : (s.step e).srInstChk3d = s.srInstChk3d ∧ (s.step e).srPlsCnt = s.srPlsCnt := by
    match e, hok, he with
    | .spiClk mosi, hok, _ =>
      have h' := h.step_spiClk mosi hok
      have hlow := h.placed.lows_eq hok.1
      have h5 : 5 ≤ b.frame.lows := hlow ▸ hok.2
      refine ⟨?_, (step_spiClk_free h.sync.resetN mosi).2.2.2.2.2.2.2.2⟩
      rw [h'.chk3d, h.chk3d]
      exact Frame.chk3d_bit h5 mosi le_rfl
    | .spiCs level, _, _ =>
      exact ⟨(h.pipeline_kept level).2.2.1,
        (step_spiCs_free h.sync.resetN level).2.2.2.2.2.2.2.2⟩
  rw [trgPls_eq, trgPls_eq, nTrgPls_eq, nTrgPls_eq, key.1, key.2]

/-- **One step**: a false trigger is a stale rise. -/
theorem falseTrigger_iff (h : Refines b s) (hok : b.Allowed Rules.bench e) :
    (∀ i, Sys.Rises ⟨b, s⟩ e i → b.frame.Complete ∧ opcode b.frame.bits = trgOpcode i) ↔
      ¬ b.StaleRise e := by
  by_cases he : e = .clk160m
  · subst he
    have hrise : ∀ i, Sys.Rises ⟨b, s⟩ .clk160m i ↔
        (b.frame.tick b.spiCs).Shows b.stale (pulseCount b.earlier) (trgOpcode i) ∧
        ¬ b.frame.Shows b.stale (pulseCount b.earlier) (trgOpcode i) := by
      intro i
      rw [← h.trgPls_iff i, Bool.not_eq_true, and_comm]
      exact and_congr_right fun _ => h.step_clk.trgPls_iff i
    have hfalse := fun i => Frame.falseRise_iff (v := b.stale) h.paced h.placed.lows_eq
      (isTrigger_trgOpcode i) (pulseCount b.earlier)
    constructor
    · rintro hall ⟨-, hs, hown, hr⟩
      obtain ⟨i, hi⟩ := (isTrigger_iff _).mp hs.1
      have := (hfalse i).mpr ⟨hi.symm, hs, hown, hr⟩
      exact this.2 (hall i ((hrise i).mpr this.1))
    · intro hno i hr
      by_contra hown
      have := (hfalse i).mp ⟨(hrise i).mp hr, hown⟩
      exact hno ⟨rfl, this.2⟩
  · refine iff_of_true (fun i hr => ?_) fun hs => he hs.1
    have hkept := h.trgPls_step hok he i
    have h0 : s.trgPls i = false := hr.1
    have h1 : (s.step e).trgPls i = true := hr.2
    rw [hkept, h0] at h1
    cases h1

end Refines

/-- **Soundness of the trigger.**  A well-formed run has no false trigger if and only if in no frame
of the run the opcode of an earlier frame comes back to the output. -/
theorem noFalseTrigger_iff {es : List Event} (hwf : WellFormed Rules.bench es) :
    NoFalseTrigger es ↔ Along Bus.step (fun b e => ¬ b.StaleRise e) Bus.start es := by
  rw [← Sys.along_bus]
  exact along_congr (I := fun y : Sys => Refines y.bus y.trg) (fun _ _ h hok => h.step hok)
    (fun _ _ h hok => h.falseTrigger_iff hok) Refines.start ((Sys.along_bus _ es).mpr hwf)

/-- A write enable frame, and then a frame without bits. -/
def staleRun : List Event :=
  clks 5 ++ frameEvents 5 (sendByte pWriteenable ++ clks 20) ++ clks 8 ++ .spiCs false :: clks 9

/-- **A false trigger**: the second frame of `staleRun` raises `TRG_PLS[1]` before its first bit. -/
theorem staleRun_falseTrigger :
    WellFormed Rules.bench staleRun ∧ ¬ NoFalseTrigger staleRun := by decide +kernel

/-- A write enable frame alone is free of false triggers. -/
theorem noFalseTrigger_single :
    NoFalseTrigger (clks 5 ++ frameEvents 5 (sendByte pWriteenable ++ clks 20) ++ clks 8) :=
  (noFalseTrigger_iff (by decide +kernel)).mpr (by decide +kernel)

/-! ### No missed trigger -/

/-- `f'` is a later stage of `f`: same opcode, already sent in `f`, `n` edges of `CLK160M` ago. -/
structure Frame.Later (f f' : Frame) (n : ℕ) : Prop where
  complete : f'.Complete
  opcode : opcode f'.bits = opcode f.bits
  clksAt8 : f'.clksAt8 = f.clksAt8
  clks : f'.clks = f.clks + n
  lows : 5 ≤ f'.lows

theorem Frame.Later.refl {f : Frame} (hc : f.Complete) (h5 : 5 ≤ f.lows) : f.Later f 0 :=
  ⟨hc, rfl, rfl, rfl, h5⟩

/-- Until the next fall of `SPI_CS` a complete frame keeps its opcode and its place. -/
theorem later_run {b : Bus} (hc : b.frame.Complete) (h5 : 5 ≤ b.frame.lows) (q : List Event)
    (hq : ∀ e ∈ q, e ≠ .spiCs false) :
    b.frame.Later (run Bus.step b q).frame (q.count .clk160m) ∧
    (run Bus.step b q).earlier = b.earlier := by
  induction q using List.reverseRecOn with
  | nil => exact ⟨.refl hc h5, rfl⟩
  | append_singleton q e ih =>
    obtain ⟨hl, he⟩ := ih fun x hx => hq x (List.mem_append_left _ hx)
    rw [run_concat, List.count_append]
    generalize run Bus.step b q = b' at hl he
    match e, hq e (by simp) with
    | .spiClk mosi, _ =>
      refine ⟨⟨?_, ?_, ?_, hl.clks, hl.lows⟩, he⟩
      · exact hl.complete.trans (by simp [Bus.step])
      · exact (opcode_append_of_complete _ _ hl.complete).trans hl.opcode
      · have hne : b'.frame.bits.length ≠ 7 := fun h7 =>
          absurd hl.complete (by simp [Frame.Complete, h7])
        exact (if_neg hne).trans hl.clksAt8
    | .clk160m, _ =>
      refine ⟨⟨hl.complete, hl.opcode, hl.clksAt8, ?_, ?_⟩, he⟩
      · simp [Bus.step, hl.clks, Nat.add_assoc]
      · have := hl.lows
        simp only [Bus.step, Frame.tick_lows]
        split_ifs <;> omega
    | .spiCs true, _ => exact ⟨⟨hl.complete, hl.opcode, hl.clksAt8, hl.clks, hl.lows⟩, he⟩
    | .resetN level, _ => exact ⟨⟨hl.complete, hl.opcode, hl.clksAt8, hl.clks, hl.lows⟩, he⟩

/-- The pulse that belongs to the opcode sent by the end of `pre`: low after the fourth edge of
`CLK160M` in `post`, high from the fifth for sixteen periods, low after the twenty-first. -/
def FiresOnTime (i : Fin 2) (pre post : List Event) : Prop :=
  ∀ q, q <+: post →
    (q.count .clk160m = 4 → (Sys.after (pre ++ q)).trg.trgPls i = false) ∧
    (5 ≤ q.count .clk160m → q.count .clk160m ≤ 20 →
      (Sys.after (pre ++ q)).trg.trgPls i = true) ∧
    (q.count .clk160m = 21 → (Sys.after (pre ++ q)).trg.trgPls i = false)

/-- At its eighth bit: no earlier opcode fires in the frame, and no earlier pulse runs for more than
the next four edges of `CLK160M`. -/
def Bus.TriggersCleanly (b : Bus) : Prop := ¬ b.frame.FiresStale b.stale ∧ 11 ≤ b.pulse

instance (i : Fin 2) (pre post : List Event) : Decidable (FiresOnTime i pre post) :=
  decidable_of_iff (∀ q ∈ post.inits, _) (forall_congr' fun q => by rw [List.mem_inits])

instance (b : Bus) : Decidable b.TriggersCleanly := inferInstanceAs (Decidable (_ ∧ _))

/-- A list has a prefix with any smaller number of edges of `CLK160M`. -/
theorem exists_prefix_count (post : List Event) (k : ℕ) (hk : k ≤ post.count .clk160m) :
    ∃ q, q <+: post ∧ q.count .clk160m = k := by
  induction post using List.reverseRecOn with
  | nil => exact ⟨[], List.prefix_refl _, (Nat.le_zero.mp hk).symm⟩
  | append_singleton post e ih =>
    by_cases hle : k ≤ post.count .clk160m
    · obtain ⟨q, hq, hc⟩ := ih hle
      exact ⟨q, hq.trans (List.prefix_append _ _), hc⟩
    · refine ⟨post ++ [e], List.prefix_refl _, ?_⟩
      have : [e].count .clk160m ≤ 1 := List.count_le_length
      rw [List.count_append] at hk ⊢
      omega

/-- The output for the opcode of a frame, `n` edges of `CLK160M` after its eighth bit. -/
theorem Frame.shows_own_iff {f f' : Frame} {v : BitVec 8} {p n : ℕ} (hl : f.Later f' n)
    (hat : f.clksAt8 = f.clks) (h5 : 5 ≤ f.clks) (hx : IsTrigger (Ptmch.opcode f.bits))
    (h4 : 4 ≤ n) (hlow : 1 ≤ f.lows) (hc : f.Complete) :
    f'.Shows v p (Ptmch.opcode f.bits) ↔
      if f.FiresStale v then f.clks + n - 10 < 15
      else if 5 ≤ n then n < 21 else p + f.clks + 4 < 15 := by
  obtain ⟨hc', hop, hat', hcl, hlow'⟩ := hl
  have hw : f'.window = 2 := window_eq_two (by omega)
  have hov : f'.Overtakes v ↔ f.Overtakes v := by
    rw [Overtakes, Overtakes, hop, hat', iff_true_intro hc, iff_true_intro hc']
  have hs : f'.FiresStale v ↔ f.FiresStale v := by
    rw [FiresStale, FiresStale, hov, iff_true_intro hlow,
      iff_true_intro (show 1 ≤ f'.lows by omega)]
  have hshow : f'.chk3d v f'.clks = Ptmch.opcode f.bits := by
    have hu : ¬ f'.Untouched f'.clks := not_untouched_iff.mpr ⟨by omega, by omega⟩
    rw [chk3d, if_neg hu, if_neg (by omega), if_pos ⟨hc', by omega⟩, hop]
  have hfires : f'.firesAt v = if f.FiresStale v then some 10 else some (f.clks + 6) := by
    rw [firesAt, if_congr hs rfl rfl, hw, hop,
      if_pos (show f'.Complete ∧ IsTrigger (Ptmch.opcode f.bits) from ⟨hc', hx⟩), hat', hat]
  rw [Shows, and_iff_right hshow]
  by_cases hst : f.FiresStale v
  · rw [if_pos hst] at hfires ⊢
    rw [pulse_of_fires hfires, if_pos (by omega), hcl]
  · rw [if_neg hst] at hfires ⊢
    rw [pulse_of_fires hfires, hcl]
    split_ifs <;> omega

/-- The output after `q`, where the last event of `pre` is the eighth bit of a frame. -/
theorem trgPls_after_eighth {i : Fin 2} {pre q : List Event} {b : Bus}
    (hwf : WellFormed Rules.bench (pre ++ q)) (hb : (Sys.after pre).bus = b)
    (hc : b.frame.Complete) (hat : b.frame.clksAt8 = b.frame.clks)
    (hop : opcode b.frame.bits = trgOpcode i) (hq : ∀ e ∈ q, e ≠ .spiCs false)
    (h4 : 4 ≤ q.count .clk160m) :
    (Sys.after (pre ++ q)).trg.trgPls i = true ↔
      if b.frame.FiresStale b.stale then b.frame.clks + q.count .clk160m - 10 < 15
      else if 5 ≤ q.count .clk160m then q.count .clk160m < 21
      else pulseCount b.earlier + b.frame.clks + 4 < 15 := by
  have hpaced : b.frame.Paced :=
    hb ▸ (refines_after (hwf.mono_run (List.prefix_append pre q))).paced
  have hafter : (Sys.after (pre ++ q)).bus = run Bus.step b q := by
    rw [← hb, Sys.after, run_append, Sys.run_bus]
    rfl
  have h5 : 5 ≤ b.frame.clks := hat ▸ hpaced.clksAt8_ge hc
  have hl5 : 5 ≤ b.frame.lows := hpaced.setup hc.ne_nil
  have hx : IsTrigger (opcode b.frame.bits) := hop ▸ isTrigger_trgOpcode i
  obtain ⟨hlater, hearlier⟩ := later_run hc hl5 q hq
  rw [(refines_after hwf).trgPls_iff i, hafter, Bus.stale, hearlier, ← hop]
  exact Frame.shows_own_iff hlater hat h5 hx h4 (by omega) hc

/-- At the eighth bit of a frame that fires its own opcode, the pulse counter has not been
restarted in the frame. -/
theorem Bus.pulse_at_eighth {b : Bus} (hc : b.frame.Complete)
    (hat : b.frame.clksAt8 = b.frame.clks) (hx : IsTrigger (opcode b.frame.bits))
    (hs : ¬ b.frame.FiresStale b.stale) : b.pulse = pulseCount b.earlier + b.frame.clks := by
  have hfires : b.frame.firesAt b.stale = some (b.frame.clksAt8 + 6) := by
    rw [Frame.firesAt, if_neg hs, if_pos ⟨hc, hx⟩]
  exact (Frame.pulse_of_fires hfires).trans (if_neg (by omega))

/-- **Completeness of the trigger.**  Let the bit after `pre` be the eighth of a frame with the
opcode of `TRG_PLS[i]`, and let at least 25 edges of `CLK160M` follow before the next fall of
`SPI_CS`.  The frame gives its pulse on time if and only if it triggers cleanly. -/
theorem firesOnTime_iff (i : Fin 2) {pre post : List Event} {mosi : Bool}
    (hwf : WellFormed Rules.bench (pre ++ .spiClk mosi :: post))
    (h8 : (Sys.after (pre ++ [.spiClk mosi])).bus.frame.bits.length = 8)
    (hop : opcode (Sys.after (pre ++ [.spiClk mosi])).bus.frame.bits = trgOpcode i)
    (hpost : ∀ e ∈ post, e ≠ .spiCs false) (h25 : 25 ≤ post.count .clk160m) :
    FiresOnTime i (pre ++ [.spiClk mosi]) post ↔
      (Sys.after (pre ++ [.spiClk mosi])).bus.TriggersCleanly := by
  have hsplit : pre ++ .spiClk mosi :: post = (pre ++ [.spiClk mosi]) ++ post := by simp
  rw [hsplit] at hwf
  have hat : (Sys.after (pre ++ [.spiClk mosi])).bus.frame.clksAt8
      = (Sys.after (pre ++ [.spiClk mosi])).bus.frame.clks := by
    rw [Sys.after_concat] at h8 ⊢
    have h7 : (Sys.after pre).bus.frame.bits.length = 7 := by
      simpa [Sys.step, Bus.step] using h8
    exact if_pos h7
  generalize hb : (Sys.after (pre ++ [.spiClk mosi])).bus = b at h8 hop hat ⊢
  have hc : b.frame.Complete := h8.ge
  have hpulse := Bus.pulse_at_eighth hc hat (hop ▸ isTrigger_trgOpcode i)
  have hout : ∀ q, q <+: post → 4 ≤ q.count .clk160m →
      ((Sys.after (pre ++ [.spiClk mosi] ++ q)).trg.trgPls i = true ↔
        if b.frame.FiresStale b.stale then b.frame.clks + q.count .clk160m - 10 < 15
        else if 5 ≤ q.count .clk160m then q.count .clk160m < 21
        else pulseCount b.earlier + b.frame.clks + 4 < 15) := fun q hq =>
    trgPls_after_eighth (hwf.mono_run ((List.prefix_append_right_inj _).mpr hq)) hb hc hat hop
      fun e he => hpost e (hq.subset he)
  constructor
  · intro hfire
    -- the rise between the fourth edge and the fifth decides
    obtain ⟨q4, hq4, hc4⟩ := exists_prefix_count post 4 (by omega)
    obtain ⟨q5, hq5, hc5⟩ := exists_prefix_count post 5 (by omega)
    have hlow := (hfire q4 hq4).1 hc4
    have hhigh := (hfire q5 hq5).2.1 hc5.ge (by omega)
    rw [← Bool.not_eq_true, hout q4 hq4 (by omega), hc4] at hlow
    rw [hout q5 hq5 (by omega), hc5] at hhigh
    by_cases hs : b.frame.FiresStale b.stale
    · rw [if_pos hs] at hlow hhigh
      omega
    · rw [if_neg hs, if_neg (by omega)] at hlow
      exact ⟨hs, by rw [hpulse hs]; omega⟩
  · rintro ⟨hs, hidle⟩ q hq
    rw [hpulse hs] at hidle
    have hout := hout q hq
    rw [if_neg hs] at hout
    refine ⟨fun hq4 => ?_, fun hq5 hq20 => ?_, fun hq21 => ?_⟩
    · rw [← Bool.not_eq_true, hout (by omega), if_neg (by omega)]
      omega
    · rw [hout (by omega), if_pos hq5]
      omega
    · rw [← Bool.not_eq_true, hout (by omega), if_pos (by omega)]
      omega

/-- A write enable frame, and then all but the last bit of a page program frame. -/
def missedRun : List Event :=
  clks 5 ++ frameEvents 5 (sendByte pWriteenable ++ clks 25) ++ clks 8 ++
    .spiCs false :: clks 13 ++ (sendByte pPageprogram).dropLast

/-- **A missed trigger**: the page program frame after a write enable frame. -/
theorem missedRun_misses :
    WellFormed Rules.bench (missedRun ++ .spiClk false :: clks 25) ∧
    (Sys.after (missedRun ++ [.spiClk false])).bus.frame.bits.length = 8 ∧
    opcode (Sys.after (missedRun ++ [.spiClk false])).bus.frame.bits = trgOpcode 0 ∧
    ¬ FiresOnTime 0 (missedRun ++ [.spiClk false]) (clks 25) := by decide +kernel

/-- A page program frame alone triggers on time. -/
theorem firesOnTime_single :
    FiresOnTime 0 (clks 5 ++ .spiCs false :: clks 13 ++ (sendByte pPageprogram).dropLast ++
      [.spiClk false]) (clks 25) :=
  (firesOnTime_iff 0 (by decide +kernel) (by decide +kernel) (by decide +kernel)
    (by decide +kernel) (by decide +kernel)).mpr (by decide +kernel)

end Ptmch
