import Mathlib.Data.List.Nodup
import Mathlib.Logic.Function.Basic

/-!
# Queues by priority with a bit for each

One queue for each number below `w`, and a word whose bits mark the queues that
are not empty. The lowest bit set names the first queue that is not empty, so the
head of that queue comes before everything else that waits.
-/
namespace PriorityBuckets
variable {w : ℕ} {ι : Type*}

structure Buckets (w : ℕ) (ι : Type*) where
  lists : ℕ → List ι
  group : BitVec w

namespace Buckets

def empty : Buckets w ι := ⟨fun _ => [], 0#w⟩

/-- Appends to queue `p` and sets the bits of the mask. -/
def push (p : ℕ) (mask : BitVec w) (t : ι) (b : Buckets w ι) : Buckets w ι :=
  ⟨Function.update b.lists p (b.lists p ++ [t]), b.group ||| mask⟩

/-- Takes an entry out of the queue it is in. -/
def unlink [DecidableEq ι] (t : ι) (b : Buckets w ι) : Buckets w ι :=
  { b with lists := fun p => (b.lists p).erase t }

/-- Takes an entry out and clears the bits of the mask if queue `p` is empty then. -/
def remove [DecidableEq ι] (p : ℕ) (mask : BitVec w) (t : ι) (b : Buckets w ι) : Buckets w ι :=
  let b := b.unlink t
  if (b.lists p).isEmpty then { b with group := b.group &&& ~~~mask } else b

/-- The bits mark the queues that are not empty. -/
def Marked (b : Buckets w ι) : Prop := ∀ p < w, b.group.getLsbD p = true ↔ b.lists p ≠ []

/-- Each entry is queued once, and in the queue of its priority. -/
structure Filed (b : Buckets w ι) (waiting : ι → Prop) (priority : ι → ℕ) : Prop where
  mem : ∀ p t, t ∈ b.lists p ↔ waiting t ∧ priority t = p
  nodup : ∀ p, (b.lists p).Nodup
  marked : b.Marked

theorem filed_empty (priority : ι → ℕ) : (empty : Buckets w ι).Filed (fun _ => False) priority := by
  refine ⟨fun p t => ?_, fun p => List.nodup_nil, fun p hp => ?_⟩
  · simp [empty]
  · simp [empty]

@[simp] theorem push_lists_self (p : ℕ) (mask : BitVec w) (t : ι) (b : Buckets w ι) :
    (b.push p mask t).lists p = b.lists p ++ [t] := Function.update_self p _ _

theorem push_lists_of_ne {p q : ℕ} (h : q ≠ p) (mask : BitVec w) (t : ι) (b : Buckets w ι) :
    (b.push p mask t).lists q = b.lists q := Function.update_of_ne h _ _

theorem remove_lists [DecidableEq ι] (p q : ℕ) (mask : BitVec w) (t : ι) (b : Buckets w ι) :
    (b.remove p mask t).lists q = (b.lists q).erase t := by
  unfold remove unlink
  dsimp only
  split_ifs <;> rfl

theorem getLsbD_mask {p : ℕ} (hp : p < w) (q : ℕ) :
    (1#w <<< p).getLsbD q = decide (q = p) := by
  by_cases h : q = p
  · subst h
    simp [hp]
  · simp only [BitVec.getLsbD_shiftLeft, BitVec.getLsbD_one, h, decide_false]
    grind

theorem marked_push {b : Buckets w ι} (h : b.Marked) {p : ℕ} (hp : p < w) (t : ι) :
    (b.push p (1#w <<< p) t).Marked := by
  intro q hq
  have hgroup : (b.push p (1#w <<< p) t).group.getLsbD q =
      (b.group.getLsbD q || decide (q = p)) := by
    rw [← getLsbD_mask hp q]
    exact BitVec.getLsbD_or
  rw [hgroup]
  by_cases hqp : q = p
  · subst hqp
    simp
  · rw [push_lists_of_ne hqp, ← h q hq]
    simp [hqp]

/-- Taking an entry out of queue `p` leaves the other queues and their bits. -/
theorem marked_remove [DecidableEq ι] {b : Buckets w ι} (h : b.Marked) {p : ℕ} (hp : p < w) {t : ι}
    (hother : ∀ q, q ≠ p → t ∉ b.lists q) : (b.remove p (1#w <<< p) t).Marked := by
  intro q hq
  rw [remove_lists]
  by_cases hqp : q = p
  · subst hqp
    unfold remove unlink
    dsimp only
    by_cases hempty : (b.lists q).erase t = []
    · simp [hempty, hq]
    · have hne : b.lists q ≠ [] := by
        intro hnil
        rw [hnil] at hempty
        exact hempty rfl
      rw [if_neg (by rw [List.isEmpty_iff]; exact hempty)]
      exact iff_of_true ((h q hq).mpr hne) hempty
  · have hkept : (b.remove p (1#w <<< p) t).group.getLsbD q = b.group.getLsbD q := by
      unfold remove unlink
      dsimp only
      split_ifs
      · rw [BitVec.getLsbD_and, BitVec.getLsbD_not, getLsbD_mask hp, decide_eq_false hqp]
        simp [hq]
      · rfl
    rw [hkept, List.erase_of_not_mem (hother q hqp)]
    exact h q hq

section Filed
variable {b : Buckets w ι} {waiting : ι → Prop} {priority : ι → ℕ}

theorem Filed.congr (h : b.Filed waiting priority) {waiting' : ι → Prop} {priority' : ι → ℕ}
    (hw : ∀ t, waiting' t ↔ waiting t) (hp : ∀ t, waiting t → priority' t = priority t) :
    b.Filed waiting' priority' := by
  refine ⟨fun p t => ?_, h.nodup, h.marked⟩
  rw [h.mem p t, hw t]
  constructor
  · rintro ⟨ht, hpt⟩
    exact ⟨ht, (hp t ht).trans hpt⟩
  · rintro ⟨ht, hpt⟩
    exact ⟨ht, (hp t ht).symm.trans hpt⟩

/-- An entry that waits in no queue may be appended to the queue of its priority. -/
theorem Filed.push (h : b.Filed waiting priority) {t : ι} (ht : ¬ waiting t)
    (hp : priority t < w) {waiting' : ι → Prop} (hw : ∀ u, waiting' u ↔ waiting u ∨ u = t) :
    (b.push (priority t) (1#w <<< priority t) t).Filed waiting' priority := by
  refine ⟨fun p u => ?_, fun p => ?_, marked_push h.marked hp t⟩
  · rw [hw u]
    by_cases hpt : p = priority t
    · subst hpt
      rw [push_lists_self, List.mem_append, List.mem_singleton, h.mem]
      constructor
      · rintro (⟨hu, hpu⟩ | rfl)
        · exact ⟨Or.inl hu, hpu⟩
        · exact ⟨Or.inr rfl, rfl⟩
      · rintro ⟨hu | rfl, hpu⟩
        · exact Or.inl ⟨hu, hpu⟩
        · exact Or.inr rfl
    · rw [push_lists_of_ne hpt, h.mem]
      constructor
      · rintro ⟨hu, hpu⟩
        exact ⟨Or.inl hu, hpu⟩
      · rintro ⟨hu | rfl, hpu⟩
        · exact ⟨hu, hpu⟩
        · exact (hpt hpu.symm).elim
  · by_cases hpt : p = priority t
    · subst hpt
      rw [push_lists_self]
      refine List.nodup_append.mpr ⟨h.nodup _, List.nodup_singleton t, fun u hu v hv => ?_⟩
      rw [List.mem_singleton.mp hv]
      rintro rfl
      exact ht ((h.mem _ u).mp hu).1
    · rw [push_lists_of_ne hpt]
      exact h.nodup p

/-- Whether it waited or not, an entry taken out of the queue of its priority waits no more. -/
theorem Filed.remove [DecidableEq ι] (h : b.Filed waiting priority) {t : ι}
    (hp : priority t < w) {waiting' : ι → Prop} (hw : ∀ u, waiting' u ↔ waiting u ∧ u ≠ t) :
    (b.remove (priority t) (1#w <<< priority t) t).Filed waiting' priority := by
  refine ⟨fun p u => ?_, fun p => ?_, marked_remove h.marked hp fun q hq hmem => ?_⟩
  · rw [remove_lists, (h.nodup p).mem_erase_iff, h.mem, hw u]
    constructor
    · rintro ⟨hne, hu, hpu⟩
      exact ⟨⟨hu, hne⟩, hpu⟩
    · rintro ⟨⟨hu, hne⟩, hpu⟩
      exact ⟨hne, hu, hpu⟩
  · rw [remove_lists]
    exact (h.nodup p).erase t
  · exact hq ((h.mem q t).mp hmem).2.symm

theorem Filed.not_mem (h : b.Filed waiting priority) {t : ι} (ht : ¬ waiting t) (p : ℕ) :
    t ∉ b.lists p := fun hmem => ht ((h.mem p t).mp hmem).1

/-- Taking out what does not wait changes nothing. -/
theorem Filed.remove_absent [DecidableEq ι] (h : b.Filed waiting priority) {t : ι}
    (ht : ¬ waiting t) (hp : priority t < w) :
    b.remove (priority t) (1#w <<< priority t) t = b := by
  have hlists : (b.unlink t).lists = b.lists :=
    funext fun p => List.erase_of_not_mem (h.not_mem ht p)
  have hunlink : b.unlink t = b := by
    cases b
    simp only [unlink, mk.injEq, and_true]
    exact hlists
  unfold Buckets.remove
  rw [hunlink]
  dsimp only
  split_ifs with hempty
  · have hbit : b.group.getLsbD (priority t) = false := by
      rw [← Bool.not_eq_true, h.marked _ hp, not_not]
      exact List.isEmpty_iff.mp hempty
    have hgroup : b.group &&& ~~~(1#w <<< priority t) = b.group := by
      apply BitVec.eq_of_getLsbD_eq
      intro i hi
      rw [BitVec.getLsbD_and, BitVec.getLsbD_not, getLsbD_mask hp]
      by_cases hit : i = priority t
      · subst hit
        simp [hbit]
      · simp [hit, hi]
    rw [hgroup]
  · rfl

/-- The lowest bit set is that of the first queue that is not empty. -/
theorem Filed.lowest (h : b.Filed waiting priority) (hgroup : b.group ≠ 0#w) :
    b.group.ctz.toNat < w ∧
      ∃ t rest, b.lists b.group.ctz.toNat = t :: rest ∧ waiting t ∧
        priority t = b.group.ctz.toNat ∧
        ∀ u, waiting u → priority u < w → b.group.ctz.toNat ≤ priority u := by
  have hbit := BitVec.getLsbD_true_ctz_of_ne_zero hgroup
  have hlt : b.group.ctz.toNat < w := by
    by_contra hge
    rw [BitVec.getLsbD_of_ge _ _ (Nat.le_of_not_lt hge)] at hbit
    exact Bool.false_ne_true hbit
  have hne := (h.marked _ hlt).mp hbit
  obtain ⟨t, rest, hcons⟩ := List.exists_cons_of_ne_nil hne
  have ht := (h.mem _ t).mp (hcons ▸ List.mem_cons_self)
  refine ⟨hlt, t, rest, hcons, ht.1, ht.2, fun u hu hpu => ?_⟩
  by_contra hbelow
  have hclear := BitVec.getLsbD_false_of_lt_ctz (Nat.lt_of_not_le hbelow)
  have hset := (h.marked _ hpu).mpr (List.ne_nil_of_mem ((h.mem _ u).mpr ⟨hu, rfl⟩))
  rw [hclear] at hset
  exact Bool.false_ne_true hset

/-- No bit is set exactly when nothing waits. -/
theorem Filed.group_eq_zero_iff (h : b.Filed waiting priority) (hp : ∀ t, priority t < w) :
    b.group = 0#w ↔ ∀ t, ¬ waiting t := by
  constructor
  · intro hgroup t ht
    have hset := (h.marked _ (hp t)).mpr (List.ne_nil_of_mem ((h.mem _ t).mpr ⟨ht, rfl⟩))
    rw [hgroup, BitVec.getLsbD_zero] at hset
    exact Bool.false_ne_true hset
  · intro hnone
    by_contra hgroup
    obtain ⟨-, t, -, -, ht, -, -⟩ := h.lowest hgroup
    exact hnone t ht

end Filed

end Buckets

end PriorityBuckets
