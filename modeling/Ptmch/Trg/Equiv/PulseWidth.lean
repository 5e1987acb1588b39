import Ptmch.Machine.Pulse
import Ptmch.Trg.Equiv.Trigger

/-!
# The width of the pulses

`sr_pls_cnt` gives every pulse sixteen periods, but the output is gated by `sr_inst_chk_3d`.  A
pulse is cut where `sr_inst_chk_3d` leaves a trigger opcode while the pulse runs: at the clear of
the next frame, or where a new opcode replaces that of an earlier frame (`Bus.CutsPulse`).  All
pulses of a well-formed run last sixteen periods exactly if none is cut (`pulsesLast16_iff`).
-/

namespace Ptmch

open Machine Trg

/-! ### Where `sr_inst_chk_3d` changes -/

namespace Frame

variable {f : Frame} {v x : BitVec 8} {cs : Bool} {p : ℕ}

/-- The next edge of `CLK160M` clears the pipeline, or brings a new opcode after the old one. -/
def Replaces (f : Frame) (v : BitVec 8) : Prop :=
  f.clks = 2 ∧ 1 ≤ f.lows ∨
  f.Complete ∧ f.clks + 1 = f.clksAt8 + 4 ∧ f.clksAt8 ≠ 5 ∧ opcode f.bits ≠ v

instance (f : Frame) (v : BitVec 8) : Decidable (f.Replaces v) :=
  inferInstanceAs (Decidable (_ ∨ _))

theorem chk3d_of_replaces (hf : f.Paced) (hr : f.Replaces v) : f.chk3d v f.clks = v := by
  rcases hr with ⟨hclks, -⟩ | ⟨hc, hclks, h5, -⟩
  · have hu : f.Untouched f.clks := Or.inl (by omega)
    rw [chk3d, if_pos hu]
  · have hge := hf.clksAt8_ge hc
    have hlows := hf.lows_of_complete hc
    have hw := hf.window_of_complete hc
    have hu : ¬ f.Untouched f.clks := not_untouched_iff.mpr ⟨by omega, by omega⟩
    have hlate : ¬ (f.Complete ∧ f.clksAt8 + 4 ≤ f.clks) := fun h => by omega
    have hov : ¬ f.Overtakes v := fun h => h5 h.2.1
    rw [chk3d, if_neg hu, if_neg (by omega), if_neg hlate, if_neg hov]

/-- A trigger opcode in `sr_inst_chk_3d` stays unless it is replaced. -/
theorem chk3d_tick_ne_iff (hf : f.Paced) (h : cs = false → f.lows = f.clks)
    (hx : IsTrigger (f.chk3d v f.clks)) :
    (f.tick cs).chk3d v (f.clks + 1) ≠ f.chk3d v f.clks ↔ f.Replaces v := by
  by_cases hr : f.Replaces v
  · rw [chk3d_of_replaces hf hr] at hx ⊢
    refine iff_of_true ?_ hr
    rcases hr with ⟨hclks, hl⟩ | ⟨hc, hclks, h5, hne⟩
    · have hu' : ¬ (f.tick cs).Untouched (f.clks + 1) :=
        not_untouched_iff.mpr ⟨by omega, hl.trans (lows_le_tick f cs)⟩
      rw [chk3d_tick_of_touched h hu', if_pos (by omega)]
      rintro rfl
      exact not_isTrigger_zero hx
    · have hlows := hf.lows_of_complete hc
      have hge := hf.clksAt8_ge hc
      have hw := hf.window_of_complete hc
      have hu : ¬ f.Untouched f.clks := not_untouched_iff.mpr ⟨by omega, by omega⟩
      rw [chk3d_tick_of_touched h (not_untouched_tick hu), if_neg (by omega),
        if_pos ⟨hc, hclks.ge⟩]
      exact hne
  · refine iff_of_false (fun hch => hch ?_) hr
    by_cases hu : f.Untouched f.clks
    · have hu' : (f.tick cs).Untouched (f.clks + 1) := by
        by_contra hu'
        -- the first edge of the clear replaces the opcode
        have hclks := clks_of_first_clear h hu hu'
        have hl := one_le_lows_of_tick h (by omega) (not_untouched_iff.mp hu').2
        exact hr (Or.inl ⟨by omega, hl⟩)
      rw [chk3d, chk3d, if_pos hu, if_pos hu']
    · have hu' : ¬ (f.tick cs).Untouched (f.clks + 1) := not_untouched_tick hu
      rw [chk3d, if_neg hu] at hx
      rw [chk3d_tick_of_touched h hu', chk3d, if_neg hu]
      have h0 := not_isTrigger_zero
      grind -ext [Replaces, Overtakes]

/-- The first of the two restarts finds the opcode there to stay. -/
theorem not_replaces_of_first (hf : f.Paced) (hg : f.firesAt v = some (f.clks + 2)) :
    ¬ f.Replaces v := by
  have h9 := firesAt_ge hf hg
  rintro (⟨hclks, -⟩ | ⟨hc, hclks, h5, -⟩)
  · omega
  · have hw := hf.window_of_complete hc
    rcases firesAt_cases hg with ⟨-, hg⟩ | ⟨-, -, -, hg⟩ <;> omega

/-- Before the first of the two restarts no trigger opcode is shown. -/
theorem not_isTrigger_before_first (hf : f.Paced) (hg : f.firesAt v = some (f.clks + 3)) :
    ¬ IsTrigger (f.chk3d v f.clks) := by
  rcases firesAt_cases hg with ⟨hs, hclks⟩ | ⟨hs, hc, -, hclks⟩
  · have hu : ¬ f.Untouched f.clks := not_untouched_iff.mpr ⟨by omega, hs.2.1⟩
    rw [chk3d, if_neg hu, if_pos (by omega)]
    exact not_isTrigger_zero
  · have hlows := hf.lows_of_complete hc
    have hge := hf.clksAt8_ge hc
    have hw := hf.window_of_complete hc
    have hu : ¬ f.Untouched f.clks := not_untouched_iff.mpr ⟨by omega, by omega⟩
    have hlate : ¬ (f.Complete ∧ f.clksAt8 + 4 ≤ f.clks) := fun h => by omega
    rw [chk3d, if_neg hu, if_neg (by omega), if_neg hlate]
    split_ifs with hov
    · exact not_isTrigger_zero
    · exact fun hv => hs ⟨hv, by omega, hov⟩

/-! ### How long an output has been high -/

/-- For how many periods of `CLK160M` the output for `x` has been high, if no pulse was cut. -/
def high (f : Frame) (v : BitVec 8) (p : ℕ) (x : BitVec 8) : ℕ :=
  if f.Shows v p x then if f.firesAt v = some (f.clks + 1) then 1 else f.pulse v p + 2 else 0

/-- No pulse was cut: `sr_inst_chk_3d` shows a trigger opcode as long as a pulse runs, and a pulse
has ended when the next one begins. -/
structure Steady (f : Frame) (v : BitVec 8) (p : ℕ) : Prop where
  shown : f.pulse v p < 15 → IsTrigger (f.chk3d v f.clks)
  rested : f.firesAt v = some (f.clks + 2) → 15 ≤ f.pulse v p

/-- The next edge of `CLK160M` takes away the opcode of a pulse before its sixteenth period. -/
def Cuts (f : Frame) (v : BitVec 8) (p : ℕ) : Prop :=
  IsTrigger v ∧ f.pulse v p + 1 < 15 ∧ f.Replaces v

instance (f : Frame) (v : BitVec 8) (p : ℕ) : Decidable (f.Cuts v p) :=
  inferInstanceAs (Decidable (_ ∧ _))

/-- An edge that starts or continues a pulse keeps its opcode. -/
theorem chk3d_kept (hf : f.Paced) (h : cs = false → f.lows = f.clks) (hs : f.Steady v p)
    (hcut : ¬ f.Cuts v p) (hp : f.pulse v p + 1 < 15 ∨ f.firesAt v = some (f.clks + 2)) :
    IsTrigger (f.chk3d v f.clks) ∧ (f.tick cs).chk3d v (f.clks + 1) = f.chk3d v f.clks := by
  have hedge := instEdge_iff (v := v) hf
  have hx : IsTrigger (f.chk3d v f.clks) := by
    rcases hp with hp | hp
    · exact hs.shown (by omega)
    · have := hedge.mpr ⟨_, hp, Or.inl rfl⟩
      rw [Bool.and_eq_true, mch, decide_eq_true_eq] at this
      exact this.1
  refine ⟨hx, not_not.mp fun hne => ?_⟩
  have hr := (chk3d_tick_ne_iff hf h hx).mp hne
  rcases hp with hp | hp
  · rw [chk3d_of_replaces hf hr] at hx
    exact hcut ⟨hx, hp, hr⟩
  · exact not_replaces_of_first hf hp hr

theorem steady_tick (hf : f.Paced) (h : cs = false → f.lows = f.clks) (hs : f.Steady v p)
    (hcut : ¬ f.Cuts v p) : (f.tick cs).Steady v p := by
  have hedge := instEdge_iff (v := v) hf
  have hpulse := pulse_tick (v := v) hf h p
  refine ⟨fun hlt => ?_, fun hg => ?_⟩
  · have hp : f.pulse v p + 1 < 15 ∨ f.firesAt v = some (f.clks + 2) := by
      by_cases he : (f.mch v f.clks && !f.mchSft2 v f.clks) = true
      · -- the first of the two restarts, or the second, when the counter is at zero already
        obtain ⟨g, hg, h2 | h1⟩ := hedge.mp he
        · exact Or.inr (h2 ▸ hg)
        · left
          rw [pulse_of_fires hg, if_pos (by omega)]
          omega
      · rw [hpulse, if_neg he] at hlt
        exact Or.inl hlt
    obtain ⟨hx, hkeep⟩ := chk3d_kept hf h hs hcut hp
    rw [tick_clks, hkeep]
    exact hx
  · -- one edge earlier no trigger opcode was shown
    have h9 := firesAt_ge (hf.tick h) hg
    rw [tick_clks] at h9
    rw [firesAt_tick h (by omega)] at hg
    have hno := not_isTrigger_before_first hf hg
    have hrest : 15 ≤ f.pulse v p := not_lt.mp fun hlt => hno (hs.shown hlt)
    rw [hpulse, if_neg]
    · omega
    · rw [hedge]
      rintro ⟨g, hg', hcl⟩
      rw [hg, Option.some.injEq, tick_clks] at hg'
      omega

/-- **One edge**: the output for `x` stays high for one more period, or it falls after sixteen. -/
theorem high_tick (hf : f.Paced) (h : cs = false → f.lows = f.clks) (hs : f.Steady v p)
    (hcut : ¬ f.Cuts v p) :
    if (f.tick cs).Shows v p x then (f.tick cs).high v p x = f.high v p x + 1
    else f.high v p x = 0 ∨ f.high v p x = 16 := by
  have hedge := instEdge_iff (v := v) hf
  have hpulse := pulse_tick (v := v) hf h p
  have hkeep := @chk3d_kept f v cs p hf h hs hcut
  have hfires : f.firesAt v ≠ some (f.clks + 2) → (f.tick cs).firesAt v ≠ some (f.clks + 2) := by
    intro hne hg
    have h9 := firesAt_ge (hf.tick h) hg
    exact hne (firesAt_tick (v := v) h (by omega) ▸ hg)
  by_cases h2 : f.firesAt v = some (f.clks + 2)
  · -- the first restart: no output was high
    have hrest := hs.rested h2
    have h0 : f.high v p x = 0 := if_neg fun hsh => by
      have := hsh.2
      omega
    have h9 := firesAt_ge hf h2
    have hg : (f.tick cs).firesAt v = some (f.clks + 1 + 1) := (firesAt_tick h (by omega)).trans h2
    split_ifs with hsh
    · rw [h0, high, if_pos hsh, tick_clks, if_pos hg]
    · exact Or.inl h0
  by_cases h1 : f.firesAt v = some (f.clks + 1)
  · -- the second restart: the output has been high for one period
    have hp0 : f.pulse v p = 0 := by
      rw [pulse_of_fires h1, if_pos le_rfl]
      omega
    have hp0' : (f.tick cs).pulse v p = 0 := by
      rw [hpulse, if_pos (hedge.mpr ⟨_, h1, Or.inr rfl⟩)]
    have hk := (hkeep (Or.inl (by omega))).2
    have hsh : (f.tick cs).Shows v p x ↔ f.Shows v p x := by
      rw [Shows, Shows, tick_clks, hk, hp0, hp0']
    rw [high, high, if_congr hsh rfl rfl, if_pos h1, tick_clks, if_neg (hfires h2), hp0']
    by_cases hx : f.Shows v p x <;> simp [hx, hsh]
  · -- the counter goes on
    have hno : ¬ (f.mch v f.clks && !f.mchSft2 v f.clks) = true := by
      rw [hedge]
      rintro ⟨g, hg, rfl | rfl⟩
      · exact h2 hg
      · exact h1 hg
    rw [if_neg hno] at hpulse
    rw [high, high, if_neg h1, tick_clks, if_neg (hfires h2), hpulse]
    by_cases hlt : f.pulse v p + 1 < 15
    · have hk := (hkeep (Or.inl hlt)).2
      have hsh : (f.tick cs).Shows v p x ↔ f.Shows v p x := by
        rw [Shows, Shows, tick_clks, hk, hpulse]
        exact and_congr_right fun _ => by omega
      by_cases hx : f.Shows v p x <;> simp [hx, hsh, Nat.add_right_comm]
    · -- and has come to 15: an output that was high has been so for sixteen periods
      have hsh : ¬ (f.tick cs).Shows v p x := fun hsh => hlt (hpulse ▸ hsh.2)
      rw [if_neg hsh]
      split_ifs with hx
      · have := hx.2
        right
        omega
      · exact Or.inl rfl

/-- A cut ends a pulse too early. -/
theorem high_of_cuts (hf : f.Paced) (h : cs = false → f.lows = f.clks) (hcut : f.Cuts v p) :
    ¬ (f.tick cs).Shows v p v ∧ f.high v p v ≠ 0 ∧ f.high v p v ≠ 16 := by
  obtain ⟨hv, hlt, hr⟩ := hcut
  have hshow := chk3d_of_replaces hf hr
  have hne := (chk3d_tick_ne_iff (v := v) hf h (hshow.symm ▸ hv)).mpr hr
  rw [hshow] at hne
  refine ⟨fun hsh => hne hsh.1, ?_⟩
  rw [high, if_pos ⟨hshow, by omega⟩]
  split_ifs <;> omega

/-! ### Events other than edges of `CLK160M` -/

theorem steady_bit (h : f.lows = f.clks) (h5 : 5 ≤ f.clks) (hs : f.Steady v p)
    (mosi : Bool) :
    (f.bit mosi).Steady v p ∧ (f.bit mosi).high v p x = f.high v p x := by
  have hshow : (f.bit mosi).chk3d v f.clks = f.chk3d v f.clks :=
    chk3d_bit (h ▸ h5) mosi le_rfl
  have hpulse : (f.bit mosi).pulse v p = f.pulse v p := pulse_bit h h5 mosi p
  have hfires : ∀ k, k < 5 → ((f.bit mosi).firesAt v = some (f.clks + k) ↔
      f.firesAt v = some (f.clks + k)) :=
    fun k hk => firesAt_bit (h ▸ h5) mosi (Nat.add_lt_add_left hk _)
  have hsh : (f.bit mosi).Shows v p x ↔ f.Shows v p x := by
    rw [Shows, Shows, bit_clks, hshow, hpulse]
  refine ⟨⟨fun hlt => ?_, fun hg => ?_⟩, ?_⟩
  · rw [bit_clks, hshow]
    exact hs.shown (hpulse ▸ hlt)
  · rw [hpulse]
    exact hs.rested ((hfires 2 (by omega)).mp hg)
  · rw [high, high, if_congr hsh rfl rfl, bit_clks, if_congr (hfires 1 (by omega)) rfl rfl, hpulse]

theorem steady_fresh (hf : f.Paced) (hset : f.Settled) (hs : f.Steady v p) :
    fresh.Steady (f.left v) (f.pulse v p) ∧
    fresh.high (f.left v) (f.pulse v p) x = f.high v p x := by
  have hshow : f.chk3d v f.clks = f.left v := chk3d_of_settled hf hset (by omega)
  have hshow' : fresh.chk3d (f.left v) fresh.clks = f.left v := if_pos (Or.inl (by decide))
  have hpulse : fresh.pulse (f.left v) (f.pulse v p) = f.pulse v p := pulse_fresh _
  have hquiet : fresh.firesAt (f.left v) = none := firesAt_fresh _
  -- a settled frame has fired long ago
  have hpast : f.firesAt v ≠ some (f.clks + 1) := by
    intro hg
    have hw := hset.window_le
    rcases firesAt_cases hg with ⟨-, hg⟩ | ⟨-, hc, -, hg⟩
    · omega
    · have hat8 := hset.clksAt8_le hf hc
      omega
  refine ⟨⟨fun hlt => ?_, fun hg => ?_⟩, ?_⟩
  · rw [hshow', ← hshow]
    exact hs.shown (hpulse ▸ hlt)
  · rw [hquiet] at hg
    cases hg
  · have hsh : fresh.Shows (f.left v) (f.pulse v p) x ↔ f.Shows v p x := by
      rw [Shows, Shows, hshow, hshow', hpulse]
    rw [high, high, if_congr hsh rfl rfl, hquiet, hpulse, if_neg hpast,
      if_neg (Option.some_ne_none _).symm]

end Frame

/-! ### Runs -/

/-- The level of `TRG_PLS[i]` after each edge of `CLK160M`. -/
def trgLevels (i : Fin 2) (es : List Event) : List Bool :=
  observe Trg.step (fun s e => if e = .clk160m then some ((s.step e).trgPls i) else none)
    Trg.start es

/-- Every pulse that has ended lasted sixteen periods of `CLK160M`. -/
def PulsesLast16 (es : List Event) : Prop := ∀ i, ∀ n ∈ pulses (trgLevels i es), n = 16

instance (es : List Event) : Decidable (PulsesLast16 es) :=
  inferInstanceAs (Decidable (∀ i, ∀ n ∈ pulses (trgLevels i es), n = 16))

namespace Bus

/-- The opcode of an earlier frame loses its pulse at this edge of `CLK160M`. -/
def CutsPulse (b : Bus) (e : Event) : Prop :=
  e = .clk160m ∧ b.frame.Cuts b.stale (pulseCount b.earlier)

instance (b : Bus) (e : Event) : Decidable (b.CutsPulse e) := inferInstanceAs (Decidable (_ ∧ _))

/-- For how many periods `TRG_PLS[i]` has been high. -/
def high (b : Bus) (i : Fin 2) : ℕ :=
  b.frame.high b.stale (pulseCount b.earlier) (trgOpcode i)

/-- No pulse was cut so far. -/
def Steady (b : Bus) : Prop := b.frame.Steady b.stale (pulseCount b.earlier)

theorem steady_start : start.Steady := ⟨by decide, by decide⟩

end Bus

namespace Refines

variable {b : Bus} {s : Trg} {e : Event}

/-- Nothing but an edge of `CLK160M` matters to the width of a pulse. -/
theorem steady_of_ne_clk (h : Refines b s) (hok : b.Allowed Rules.bench e) (he : e ≠ .clk160m)
    (hs : b.Steady) : (b.step e).Steady ∧ ∀ i, (b.step e).high i = b.high i := by
  match e, hok, he with
  | .spiClk mosi, hok, _ =>
    have hlow := h.placed.lows_eq hok.1
    have h5 : 5 ≤ b.frame.clks := hok.2
    exact ⟨(Frame.steady_bit (x := 0) hlow h5 hs mosi).1,
      fun _ => (Frame.steady_bit hlow h5 hs mosi).2⟩
  | .spiCs true, _, _ => exact ⟨hs, fun _ => rfl⟩
  | .spiCs false, hok, _ =>
    have hset := h.settled_of_fall hok
    have hbus : b.step (.spiCs false) = ⟨false, Frame.fresh, b.frame :: b.earlier⟩ := by
      simp [Bus.step, hok.1]
    have hst : Bus.stale ⟨false, Frame.fresh, b.frame :: b.earlier⟩ = b.frame.left b.stale :=
      latestOpcode_cons ..
    rw [hbus, Bus.Steady, hst]
    refine ⟨(Frame.steady_fresh (x := 0) h.paced hset hs).1, fun i => ?_⟩
    rw [Bus.high, hst]
    exact (Frame.steady_fresh h.paced hset hs).2

/-- **One edge of `CLK160M`**: unless it cuts a pulse, an output stays high or falls after sixteen
periods. -/
theorem steady_clk (h : Refines b s) (hcut : ¬ b.CutsPulse .clk160m) (hs : b.Steady) :
    (b.step .clk160m).Steady ∧ ∀ i,
      if (s.step .clk160m).trgPls i then (b.step .clk160m).high i = b.high i + 1
      else (b.step .clk160m).high i = 0 ∧ (b.high i = 0 ∨ b.high i = 16) := by
  have hcut : ¬ b.frame.Cuts b.stale (pulseCount b.earlier) := fun hc => hcut ⟨rfl, hc⟩
  refine ⟨Frame.steady_tick h.paced h.placed.lows_eq hs hcut, fun i => ?_⟩
  have htick := Frame.high_tick (x := trgOpcode i) h.paced h.placed.lows_eq hs hcut
  have hout := h.step_clk.trgPls_iff i
  rw [if_congr hout rfl rfl]
  by_cases hsh : (b.frame.tick b.spiCs).Shows b.stale (pulseCount b.earlier) (trgOpcode i)
  · rw [if_pos hsh] at htick
    exact (if_pos hsh).mpr htick
  · rw [if_neg hsh] at htick
    exact (if_neg hsh).mpr ⟨if_neg hsh, htick⟩

end Refines

theorem trgLevels_concat (i : Fin 2) (es : List Event) (e : Event) :
    trgLevels i (es ++ [e])
      = trgLevels i es ++ if e = .clk160m then [(Sys.after (es ++ [e])).trg.trgPls i] else [] := by
  rw [trgLevels, observe_concat, ← trgLevels, Sys.after_concat]
  congr 1
  by_cases he : e = .clk160m
  · rw [if_pos he, if_pos he, Option.toList_some, Sys.step, Sys.after, Sys.run_trg]
    rfl
  · rw [if_neg he, if_neg he, Option.toList_none]

/-- The widths of a run in which no pulse was cut. -/
theorem widths_of_uncut {es : List Event} (hwf : WellFormed Rules.bench es)
    (hcut : Along Bus.step (fun b e => ¬ b.CutsPulse e) Bus.start es) :
    (Sys.after es).bus.Steady ∧ (∀ i, highFor (trgLevels i es) = (Sys.after es).bus.high i) ∧
    PulsesLast16 es := by
  -- by induction on the run, with `Steady` in every state
  induction es using List.reverseRecOn with
  | nil => exact ⟨Bus.steady_start, by decide, by decide⟩
  | append_singleton es e ih =>
    obtain ⟨hpre, hok⟩ := (along_concat _ _ _).mp hwf
    obtain ⟨hcut, hlast⟩ := (along_concat _ _ _).mp hcut
    obtain ⟨hs, hhigh, hpulses⟩ := ih hpre hcut
    have href := refines_after hpre
    rw [← Sys.run_bus ⟨Bus.start, Trg.start⟩] at hok hlast
    have hok : (Sys.after es).bus.Allowed Rules.bench e := hok
    have hlast : ¬ (Sys.after es).bus.CutsPulse e := hlast
    by_cases he : e = .clk160m
    · subst he
      obtain ⟨hs', hout⟩ := href.steady_clk hlast hs
      simp only [PulsesLast16, trgLevels_concat, if_pos, highFor_concat, pulses_concat, hhigh,
        Sys.after_concat]
      refine ⟨hs', fun i => ?_, fun i n hn => ?_⟩
      · have hi := hout i
        show (if ((Sys.after es).trg.step .clk160m).trgPls i = true then _ else 0)
          = ((Sys.after es).bus.step .clk160m).high i
        split_ifs at hi ⊢
        · exact hi.symm
        · exact hi.1.symm
      · rcases List.mem_append.mp hn with hn | hn
        · exact hpulses i n hn
        · have hi := hout i
          obtain ⟨⟨hf, h0⟩, hn⟩ := List.mem_ite_nil_right.mp hn
          have hf : ((Sys.after es).trg.step .clk160m).trgPls i = false := hf
          rw [if_neg (by simp [hf])] at hi
          rw [List.mem_singleton.mp hn]
          exact hi.2.resolve_left h0
    · obtain ⟨hs', hh'⟩ := href.steady_of_ne_clk hok he hs
      simp only [PulsesLast16, trgLevels_concat, if_neg he, List.append_nil, hhigh]
      rw [Sys.after_concat]
      exact ⟨hs', fun i => (hh' i).symm, hpulses⟩

/-- **Pulse width.**  All pulses of a well-formed run last sixteen periods of `CLK160M` if and only
if no frame takes the opcode of an earlier frame away from its pulse. -/
theorem pulsesLast16_iff {es : List Event} (hwf : WellFormed Rules.bench es) :
    PulsesLast16 es ↔ Along Bus.step (fun b e => ¬ b.CutsPulse e) Bus.start es := by
  refine ⟨fun hall => ?_, fun hcut => (widths_of_uncut hwf hcut).2.2⟩
  induction es using List.reverseRecOn with
  | nil => exact trivial
  | append_singleton es e ih =>
    obtain ⟨hpre, -⟩ := (along_concat _ _ _).mp hwf
    -- what has ended stays in the list, so no pulse was cut before
    have hall' : PulsesLast16 es := by
      intro i n hn
      refine hall i n ?_
      rw [trgLevels_concat]
      split_ifs
      · rw [pulses_concat]
        exact List.mem_append_left _ hn
      · rwa [List.append_nil]
    have hcut := ih hpre hall'
    refine (along_concat _ _ _).mpr ⟨hcut, ?_⟩
    rw [← Sys.run_bus ⟨Bus.start, Trg.start⟩]
    rintro ⟨rfl, hc⟩
    -- the pulse that is cut here is in the list, and is too short
    obtain ⟨i, hi⟩ := (isTrigger_iff _).mp hc.1
    have href := refines_after hpre
    obtain ⟨hfall, h0, h16⟩ := Frame.high_of_cuts href.paced href.placed.lows_eq hc
    have hhigh : highFor (trgLevels i es) = (Sys.after es).bus.high i :=
      (widths_of_uncut hpre hcut).2.1 i
    rw [Bus.high, ← hi] at hhigh
    have hlow : ((Sys.after es).step .clk160m).trg.trgPls i = false := by
      refine Bool.eq_false_iff.mpr fun hon => hfall ?_
      have hsh := (href.step_clk.trgPls_iff i).mp hon
      rw [← hi] at hsh
      exact hsh
    refine h16 (hall i _ ?_)
    rw [trgLevels_concat, if_pos rfl, pulses_concat, hhigh, Sys.after_concat, if_pos ⟨hlow, h0⟩]
    exact List.mem_append_right _ (List.mem_singleton_self _)

/-- A write enable frame, and the next frame 50 ns after it. -/
def cutRun : List Event :=
  clks 5 ++ frameEvents 5 (sendByte pWriteenable) ++ clks 8 ++ .spiCs false :: clks 5

/-- **A short pulse**: the frame after the single-byte frame of `cutRun` clears the pulse of the
write enable. -/
theorem cutRun_short : WellFormed Rules.bench cutRun ∧ ¬ PulsesLast16 cutRun := by decide +kernel

/-- A pulse that runs to its end before the next frame. -/
theorem pulsesLast16_single :
    PulsesLast16 (clks 5 ++ frameEvents 5 (sendByte pWriteenable) ++ clks 25) :=
  (pulsesLast16_iff (by decide +kernel)).mpr (by decide +kernel)

end Ptmch
