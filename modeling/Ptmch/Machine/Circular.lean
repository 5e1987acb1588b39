import Mathlib.Data.List.Chain
import Mathlib.Data.List.Nodup

/-!
# Circular lists of linked cells

The cells of a memory hold pointers to the cell after and the cell before them.  `Circle m head l`
says that the cells from `head` on, followed through `next`, are those of `l` and then `head` again,
and backwards through `previous`.

`Circle.insert` and `Circle.remove` say which changes of a memory put a cell behind the head and
take one out.
-/

namespace Ptmch.Machine

variable {ν : Type*}

@[ext]
structure Links (ν : Type*) where
  next : ν
  previous : ν
  deriving DecidableEq, Repr

/-- The cell `b` comes after the cell `a`. -/
def Joined (m : ν → Links ν) (a b : ν) : Prop := (m a).next = b ∧ (m b).previous = a

structure Circle (m : ν → Links ν) (head : ν) (l : List ν) : Prop where
  nodup : (head :: l).Nodup
  joined : (head :: (l ++ [head])).IsChain (Joined m)

variable {m m' : ν → Links ν} {head e : ν} {l xs ys : List ν}

/-! ### What is read -/

theorem circle_nil_iff : Circle m head [] ↔ m head = ⟨head, head⟩ := by
  constructor
  · intro h
    obtain ⟨hnext, hprevious⟩ := (List.isChain_cons_cons.mp h.joined).1
    calc m head
      _ = ⟨(m head).next, (m head).previous⟩ := rfl
      _ = ⟨head, head⟩ := by rw [hnext, hprevious]
  · intro h
    refine ⟨List.nodup_singleton head, ?_⟩
    simp [Joined, h]

theorem Circle.next_head (h : Circle m head l) : (l ++ [head]).head? = some (m head).next := by
  have hjoined := h.joined
  cases l with
  | nil => rw [(List.isChain_cons_cons.mp hjoined).1.1]; rfl
  | cons a l => rw [(List.isChain_cons_cons.mp hjoined).1.1]; rfl

/-- A cell of the list between those before and those after it. -/
theorem Circle.split (h : Circle m head (xs ++ e :: ys)) :
    (head :: xs).IsChain (Joined m) ∧ (ys ++ [head]).IsChain (Joined m) ∧
    (head :: xs).getLast? = some (m e).previous ∧ (ys ++ [head]).head? = some (m e).next := by
  have hjoined := h.joined
  rw [List.append_assoc, List.cons_append, ← List.cons_append, List.isChain_append] at hjoined
  obtain ⟨hfront, hback, hseam⟩ := hjoined
  refine ⟨hfront, hback.tail, ?_, ?_⟩
  · have hlast := List.getLast?_eq_some_getLast (List.cons_ne_nil head xs)
    rw [hlast, (hseam _ hlast e (by simp)).2]
  · cases ys with
    | nil => rw [(List.isChain_cons_cons.mp hback).1.1]; rfl
    | cons b ys => rw [(List.isChain_cons_cons.mp hback).1.1]; rfl

/-! ### Changes -/

/-- A chain reads `next` of all its cells but the last, and `previous` of all but the first. -/
theorem isChain_congr (h : l.IsChain (Joined m))
    (hnext : ∀ a ∈ l.dropLast, (m' a).next = (m a).next)
    (hprevious : ∀ a ∈ l.tail, (m' a).previous = (m a).previous) : l.IsChain (Joined m') := by
  induction l with
  | nil => exact List.isChain_nil
  | cons a l ih =>
    cases l with
    | nil => exact List.isChain_singleton a
    | cons b l =>
      obtain ⟨hab, hl⟩ := List.isChain_cons_cons.mp h
      refine List.isChain_cons_cons.mpr ⟨⟨?_, ?_⟩, ih hl ?_ ?_⟩
      · rw [hnext a (by simp)]
        exact hab.1
      · rw [hprevious b (by simp)]
        exact hab.2
      · intro c hc
        exact hnext c (by simp [hc])
      · intro c hc
        exact hprevious c (by simpa using Or.inr hc)

/-- **Insertion** of a cell behind the head. -/
theorem Circle.insert (h : Circle m head l) (he : e ∉ head :: l)
    (hentry : m' e = ⟨(m head).next, head⟩) (hhead : (m' head).next = e)
    (hfirst : (m' (m head).next).previous = e)
    (hnext : ∀ a, a ≠ head → a ≠ e → (m' a).next = (m a).next)
    (hprevious : ∀ a, a ≠ (m head).next → a ≠ e → (m' a).previous = (m a).previous) :
    Circle m' head (e :: l) := by
  constructor
  · have hperm := List.Perm.swap head e l
    exact hperm.nodup_iff.mp (List.nodup_cons.mpr ⟨he, h.nodup⟩)
  · have hback := List.IsChain.tail h.joined
    have hnodup : (l ++ [head]).Nodup := (List.perm_append_singleton head l).nodup_iff.mpr h.nodup
    have hmem : ∀ a ∈ l ++ [head], a ≠ e := by
      rintro a ha rfl
      exact he ((List.perm_append_singleton head l).mem_iff.mp ha)
    have hinit : (l ++ [head]).dropLast = l := List.dropLast_concat
    have hfst := h.next_head
    -- The cell after the head is the first one of `l`, or the head itself where `l` is empty.
    rw [List.tail_cons] at hback
    rw [List.cons_append]
    generalize l ++ [head] = back at hback hnodup hmem hinit hfst
    cases back with
    | nil => exact absurd hfst (by simp)
    | cons b back =>
      replace hfst : (m head).next = b := (Option.some.inj hfst).symm
      rw [hfst] at hentry hfirst hprevious
      refine List.isChain_cons_cons.mpr ⟨⟨hhead, by rw [hentry]⟩, ?_⟩
      refine List.isChain_cons_cons.mpr ⟨⟨by rw [hentry], hfirst⟩, ?_⟩
      apply isChain_congr hback
      · intro a ha
        have hal : a ∈ l := hinit ▸ ha
        apply hnext a _ (hmem a ((List.dropLast_sublist _).subset ha))
        rintro rfl
        exact (List.nodup_cons.mp h.nodup).1 hal
      · intro a ha
        apply hprevious a _ (hmem a (List.mem_cons_of_mem _ ha))
        rintro rfl
        exact (List.nodup_cons.mp hnodup).1 ha

/-- **Removal** of a cell. -/
theorem Circle.remove (h : Circle m head (xs ++ e :: ys))
    (hbefore : (m' (m e).previous).next = (m e).next)
    (hafter : (m' (m e).next).previous = (m e).previous)
    (hnext : ∀ a, a ≠ (m e).previous → a ≠ e → (m' a).next = (m a).next)
    (hprevious : ∀ a, a ≠ (m e).next → a ≠ e → (m' a).previous = (m a).previous) :
    Circle m' head (xs ++ ys) := by
  obtain ⟨hfront, hback, hlast, hfst⟩ := h.split
  have hnodup : (head :: xs ++ e :: ys).Nodup := h.nodup
  obtain ⟨hxs, heys, hdisjoint⟩ := List.nodup_append.mp hnodup
  obtain ⟨hey, hys⟩ := List.nodup_cons.mp heys
  have hp : (m e).previous ∈ head :: xs := List.mem_of_getLast? hlast
  have hyshead : (ys ++ [head]).Nodup := by
    apply (List.perm_append_singleton head ys).nodup_iff.mpr
    apply List.nodup_cons.mpr ⟨fun hmem => ?_, hys⟩
    exact hdisjoint head List.mem_cons_self head (List.mem_cons_of_mem _ hmem) rfl
  have hback_ne : ∀ a ∈ ys ++ [head], a ≠ e := by
    rintro a ha rfl
    rcases List.mem_append.mp ha with hmem | hmem
    · exact hey hmem
    · exact hdisjoint head List.mem_cons_self a List.mem_cons_self (List.mem_singleton.mp hmem).symm
  constructor
  · have hsub := (List.Sublist.refl xs).append (List.sublist_cons_self e ys)
    exact List.Nodup.sublist (hsub.cons_cons head) h.nodup
  · rw [List.append_assoc, ← List.cons_append, List.isChain_append]
    refine ⟨isChain_congr hfront ?_ ?_, isChain_congr hback ?_ ?_, ?_⟩
    · -- The cell before `e` is the last one of the front part.
      intro a ha
      have hmem := (List.dropLast_sublist _).subset ha
      apply hnext a
      · rintro rfl
        obtain ⟨init, hinit⟩ := List.getLast?_eq_some_iff.mp hlast
        rw [hinit, List.dropLast_concat] at ha
        rw [hinit] at hxs
        exact (List.nodup_append.mp hxs).2.2 _ ha _ (List.mem_singleton_self _) rfl
      · exact hdisjoint a hmem e List.mem_cons_self
    · intro a ha
      have hmem : a ∈ head :: xs := List.mem_cons_of_mem _ ha
      apply hprevious a
      · rintro rfl
        rcases List.mem_append.mp (List.mem_of_head? hfst) with hmem' | hmem'
        · exact hdisjoint _ hmem _ (List.mem_cons_of_mem _ hmem') rfl
        · rw [List.mem_singleton.mp hmem'] at ha
          exact (List.nodup_cons.mp hxs).1 ha
      · exact hdisjoint a hmem e List.mem_cons_self
    · intro a ha
      rw [List.dropLast_concat] at ha
      apply hnext a
      · rintro rfl
        exact hdisjoint _ hp _ (List.mem_cons_of_mem _ ha) rfl
      · exact hback_ne a (List.mem_append_left _ ha)
    · -- The cell after `e` is the first one of the back part.
      intro a ha
      apply hprevious a _ (hback_ne a (List.mem_of_mem_tail ha))
      rintro rfl
      obtain ⟨rest, hrest⟩ := List.head?_eq_some_iff.mp hfst
      rw [hrest] at ha hyshead
      exact (List.nodup_cons.mp hyshead).1 ha
    · intro a ha b hb
      rw [hlast] at ha
      rw [hfst] at hb
      obtain rfl := Option.some.inj ha
      obtain rfl := Option.some.inj hb
      exact ⟨hbefore, hafter⟩

end Ptmch.Machine
