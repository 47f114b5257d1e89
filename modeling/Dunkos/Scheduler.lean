import Dunkos.ThreadRun
import Dunkos.ListSpec

/-! # Sequences of threads for linked lists

`Kernel Seqs` is the kernel with sequences of threads in place of linked lists.  `Refines` relates the
kernel on linked lists to it, with one lemma for each function of `thread.c`: the function refines
itself on sequences as long as it pushes threads that are on no list and removes those that are on the
list. -/

namespace Dunkos

open ThreadQueues

/-! ### Sequences in place of lists -/

abbrev Seqs := Queue → List ℕ

instance : ThreadQueues Seqs where
  isEmpty q l := (q l).isEmpty
  pushBack q l el :=
    match el with
    | .node t => Function.update q l (q l ++ [t])
    | _ => q
  popFront q l := (Function.update q l (q l).tail, (q l).head?.elim .null .node)
  remove q l el :=
    match el with
    | .node t => Function.update q l ((q l).erase t)
    | _ => q
  members q l := q l

section
variable {m : ListMem Queue ℕ} {q : Seqs}

theorem isEmpty_eq (h : Represents m q) (l : Queue) : isEmpty m l = isEmpty q l := by
  rw [Bool.eq_iff_iff]
  exact ((h.holds l).listEmpty_iff).trans List.isEmpty_iff.symm

theorem popFront_represents (h : Represents m q) (l : Queue) :
    Represents (popFront m l).1 (popFront q l).1 ∧ (popFront m l).2 = (popFront q l).2 := by
  refine ⟨h.popFront l, ?_⟩
  show (listPopFront m l).2 = (q l).head?.elim .null .node
  cases hx : q l with
  | nil => rw [h.popFront_nil hx, List.head?_nil, Option.elim_none]
  | cons t ts => rw [h.popFront_cons hx, List.head?_cons, Option.elim_some]

theorem pushBack_represents (h : Represents m q) (l : Queue) {t : ℕ} (ht : ∀ l', t ∉ q l') :
    Represents (pushBack m l (.node t)) (pushBack q l (.node t)) :=
  h.pushBack l ht

theorem remove_represents (h : Represents m q) {l : Queue} {t : ℕ} (ht : t ∈ q l) :
    Represents (remove m l (.node t)) (remove q l (.node t)) :=
  h.remove ht

theorem members_eq (h : Represents m q) (l : Queue) : members m l = q l := by
  show (forward m l).1 = q l
  rw [h.forward_eq]

end

/-! ### Threads on sequences -/

/-- No thread is on two lists, or twice on one. -/
structure Queues (q : Seqs) : Prop where
  nodup : ∀ l, (q l).Nodup
  disjoint : ∀ l l', l ≠ l' → ∀ t ∈ q l, t ∉ q l'

theorem queues_of_represents {m : ListMem Queue ℕ} {q : Seqs} (h : Represents m q) : Queues q :=
  ⟨fun l => (h.holds l).nodup, h.disjoint⟩

theorem mem_push {q : Seqs} {l l' : Queue} {t u : ℕ} :
    u ∈ pushBack q l (.node t) l' ↔ u ∈ q l' ∨ u = t ∧ l' = l := by
  show u ∈ Function.update q l (q l ++ [t]) l' ↔ _
  by_cases hl : l' = l
  · rw [hl, Function.update_self, List.mem_append, List.mem_singleton]
    simp only [and_true]
  · rw [Function.update_of_ne hl]
    simp only [hl, and_false, or_false]

theorem popFront_cons {q : Seqs} {l : Queue} {t : ℕ} {ts : List ℕ} (hx : q l = t :: ts) :
    popFront q l = (Function.update q l ts, .node t) := by
  show (Function.update q l (q l).tail, (q l).head?.elim Elem.null Elem.node) = _
  rw [hx]
  rfl

namespace Queues
variable {q q' : Seqs} {l : Queue} {t : ℕ} {ts : List ℕ}

theorem of_sublist (h : Queues q) (hs : ∀ l, (q' l).Sublist (q l)) : Queues q' where
  nodup l := (h.nodup l).sublist (hs l)
  disjoint l l' hl t ht ht' := h.disjoint l l' hl t ((hs l).subset ht) ((hs l').subset ht')

theorem push (h : Queues q) (l : Queue) (ht : ∀ l', t ∉ q l') : Queues (pushBack q l (.node t)) where
  nodup l' := by
    show (Function.update q l (q l ++ [t]) l').Nodup
    by_cases hl : l' = l
    · rw [hl, Function.update_self, List.nodup_append]
      refine ⟨h.nodup l, List.nodup_singleton t, fun u hu v hv => ?_⟩
      rw [List.mem_singleton.mp hv]
      exact fun he => ht l (he ▸ hu)
    · rw [Function.update_of_ne hl]
      exact h.nodup l'
  disjoint l₁ l₂ hne u h₁ h₂ := by
    rw [mem_push] at h₁ h₂
    rcases h₁ with h₁ | ⟨rfl, rfl⟩ <;> rcases h₂ with h₂ | ⟨h₂, h₃⟩
    · exact h.disjoint l₁ l₂ hne u h₁ h₂
    · exact ht l₁ (h₂ ▸ h₁)
    · exact ht l₂ h₂
    · exact hne h₃.symm

theorem update_sublist (hx : ts.Sublist (q l)) (l' : Queue) : (Function.update q l ts l').Sublist (q l') := by
  by_cases hl : l' = l
  · rw [hl, Function.update_self]
    exact hx
  · rw [Function.update_of_ne hl]

/-- The thread popped is on no list any more, and the others are where they were. -/
theorem pop (h : Queues q) (hx : q l = t :: ts) : Queues (Function.update q l ts) ∧
    (∀ l', t ∉ Function.update q l ts l') ∧ ∀ u, u ≠ t → ∀ l', u ∈ Function.update q l ts l' ↔ u ∈ q l' := by
  have hnd := h.nodup l
  rw [hx, List.nodup_cons] at hnd
  refine ⟨h.of_sublist (update_sublist (hx ▸ List.sublist_cons_self t ts)), fun l' => ?_, fun u hu l' => ?_⟩
  · by_cases hl : l' = l
    · rw [hl, Function.update_self]
      exact hnd.1
    · rw [Function.update_of_ne hl]
      exact h.disjoint l l' (Ne.symm hl) t (hx ▸ List.mem_cons_self)
  · by_cases hl : l' = l
    · rw [hl, Function.update_self, hx, List.mem_cons]
      simp only [hu, false_or]
    · rw [Function.update_of_ne hl]

/-- The same for a thread removed. -/
theorem erase (h : Queues q) (ht : t ∈ q l) : Queues (remove q l (.node t)) ∧
    (∀ l', t ∉ remove q l (.node t) l') ∧ ∀ u, u ≠ t → ∀ l', u ∈ remove q l (.node t) l' ↔ u ∈ q l' := by
  show Queues (Function.update q l ((q l).erase t)) ∧ (∀ l', t ∉ Function.update q l ((q l).erase t) l') ∧
    ∀ u, u ≠ t → ∀ l', u ∈ Function.update q l ((q l).erase t) l' ↔ u ∈ q l'
  refine ⟨h.of_sublist (update_sublist List.erase_sublist), fun l' => ?_, fun u hu l' => ?_⟩
  · by_cases hl : l' = l
    · rw [hl, Function.update_self]
      exact (h.nodup l).not_mem_erase
    · rw [Function.update_of_ne hl]
      exact h.disjoint l l' (Ne.symm hl) t ht
  · by_cases hl : l' = l
    · rw [hl, Function.update_self, List.mem_erase_of_ne hu]
    · rw [Function.update_of_ne hl]

end Queues

/-! ### Refinement of the functions -/

/-- Two branches on the same condition. -/
theorem rel_ite {α β : Type} {R : α → β → Prop} {c c' : Prop} [Decidable c] [Decidable c'] {x y : α} {x' y' : β}
    (hc : c ↔ c') (h₁ : c' → R x x') (h₂ : ¬ c' → R y y') : R (if c then x else y) (if c' then x' else y') := by
  by_cases h : c'
  · rw [if_pos (hc.mpr h), if_pos h]
    exact h₁ h
  · rw [if_neg fun h' => h (hc.mp h'), if_neg h]
    exact h₂ h

theorem rel_map {α β : Type} {R S : α → β → Prop} {f : α → α} {g : β → β} {x : Option α} {y : Option β}
    (h : Option.Rel R x y) (hf : ∀ a b, R a b → S (f a) (g b)) : Option.Rel S (x.map f) (y.map g) := by
  cases h with
  | none => exact .none
  | some h => exact .some (hf _ _ h)

/-- The kernel on linked lists and the kernel on sequences are in the same state. -/
structure Refines (k : Kernel (ListMem Queue ℕ)) (a : Kernel Seqs) : Prop where
  threads : k.toThreads = a.toThreads
  mem : Represents k.mem a.mem

namespace Refines
variable {k : Kernel (ListMem Queue ℕ)} {a : Kernel Seqs}

/-- The same change to the fields of threads. -/
theorem update (h : Refines k a) (f : Threads → Threads) : Refines ⟨f k.toThreads, k.mem⟩ ⟨f a.toThreads, a.mem⟩ :=
  ⟨congrArg f h.threads, h.mem⟩

theorem setInterruptLevel (h : Refines k a) (level : InterruptLevel) :
    Refines (k.setInterruptLevel level) (a.setInterruptLevel level) :=
  h.update fun th => ((Kernel.mk th a.mem).setInterruptLevel level).toThreads

theorem nextThread (h : Refines k a) : Refines k.nextThread.1 a.nextThread.1 ∧ k.nextThread.2 = a.nextThread.2 := by
  have hidle : k.idle = a.idle := congrArg Threads.idle h.threads
  unfold Kernel.nextThread
  rw [isEmpty_eq h.mem]
  split_ifs
  · exact ⟨h, congrArg some hidle⟩
  · obtain ⟨h₁, h₂⟩ := popFront_represents h.mem .ready
    exact ⟨⟨h.threads, h₁⟩, congrArg Elem.node? h₂⟩

theorem scheduleNext (h : Refines k a) : Option.Rel Refines k.scheduleNext a.scheduleNext := by
  obtain ⟨hs, hn⟩ := h.nextThread
  unfold Kernel.scheduleNext
  generalize k.nextThread = r at hs hn ⊢
  generalize a.nextThread = r' at hs hn ⊢
  obtain ⟨⟨th, m⟩, next⟩ := r
  obtain ⟨⟨th', q⟩, next'⟩ := r'
  obtain ⟨rfl, hm⟩ := hs
  cases (show next = next' from hn)
  cases next with
  | none => exact .none
  | some next =>
      refine rel_ite Iff.rfl (fun _ => .some ?_) (fun _ => .none)
      exact rel_ite Iff.rfl (fun _ => ⟨rfl, hm⟩) (fun _ => ⟨rfl, hm⟩)

theorem yieldCurrent (h : Refines k a) (hn : a.status a.running ≠ .blocked → ∀ l, a.running ∉ a.mem l) :
    Option.Rel Refines k.yieldCurrent a.yieldCurrent := by
  obtain ⟨th, m⟩ := k
  obtain ⟨th', q⟩ := a
  obtain ⟨rfl, hm⟩ := h
  refine rel_ite Iff.rfl (fun hs => ?_) (fun _ => scheduleNext ⟨rfl, hm⟩)
  exact scheduleNext ⟨rfl, pushBack_represents hm .ready (hn hs)⟩

theorem blockCurrent (h : Refines k a) : Option.Rel Refines k.blockCurrent a.blockCurrent := by
  have h' := h.update fun th => ((Kernel.mk th a.mem).disableInterrupts.setStatus th.running .blocked).toThreads
  exact yieldCurrent h' fun hne => absurd (Function.update_self ..) hne

theorem threadBlock (h : Refines k a) {thr : ℕ} (ht : thr = a.running ∨ thr ∈ a.mem .ready) :
    Option.Rel Refines (k.threadBlock thr) (a.threadBlock thr) := by
  have hrun : k.running = a.running := congrArg Threads.running h.threads
  refine rel_ite (by rw [hrun]) (fun _ => h.blockCurrent) (fun hr => .some ⟨?_, ?_⟩)
  · exact congrArg (fun th => { th with status := Function.update th.status thr .blocked }) h.threads
  · exact remove_represents h.mem (ht.resolve_left hr)

theorem threadUnblock (h : Refines k a) {thr : ℕ} (ht : thr ≠ a.idle → ∀ l, thr ∉ a.mem l) :
    Refines (k.threadUnblock thr) (a.threadUnblock thr) := by
  obtain ⟨th, m⟩ := k
  obtain ⟨th', q⟩ := a
  obtain ⟨rfl, hm⟩ := h
  rw [Kernel.threadUnblock_eq, Kernel.threadUnblock_eq]
  exact ⟨rfl, rel_ite Iff.rfl (fun hi => pushBack_represents hm .ready (ht hi)) (fun _ => hm)⟩

theorem exitThread (h : Refines k a) : Option.Rel Refines k.exitThread a.exitThread :=
  scheduleNext (h.update fun th => ((Kernel.mk th a.mem).disableInterrupts.setStatus th.running .dead).toThreads)

theorem createThread (h : Refines k a) (hn : ∀ l, a.nextTid ∉ a.mem l) : Refines k.createThread a.createThread := by
  have hnext : k.nextTid = a.nextTid := congrArg Threads.nextTid h.threads
  unfold Kernel.createThread
  rw [hnext]
  exact threadUnblock (h.update fun th => (Kernel.mk th a.mem).newThread.toThreads) fun _ => hn

theorem decLoop (h : Refines k a) (s : Sema) {value : ℕ} (old : InterruptLevel)
    (hn : value = 0 → ∀ l, a.running ∉ a.mem l) :
    Option.Rel Refines (k.decLoop s value old) (a.decLoop s value old) := by
  obtain ⟨th, m⟩ := k
  obtain ⟨th', q⟩ := a
  obtain ⟨rfl, hm⟩ := h
  refine rel_ite Iff.rfl (fun hv => ?_) (fun _ => .some ⟨rfl, hm⟩)
  exact blockCurrent ⟨rfl, pushBack_represents hm _ (hn hv)⟩

theorem wakeWaiter (h : Refines k a) (s : Sema) : Option.Rel Refines (k.wakeWaiter s) (a.wakeWaiter s) := by
  unfold Kernel.wakeWaiter
  refine rel_ite (Bool.eq_iff_iff.mp (isEmpty_eq h.mem _)) (fun _ => .some h) (fun he => ?_)
  have he' : a.mem (.sema s) ≠ [] := fun hx => he (List.isEmpty_iff.mpr hx)
  obtain ⟨t, ts, hx⟩ := List.exists_cons_of_ne_nil he'
  obtain ⟨h₁, h₂⟩ := popFront_represents h.mem (.sema s)
  rw [popFront_cons hx] at h₁ h₂ ⊢
  dsimp only
  rw [h₂]
  apply Option.Rel.some
  apply threadUnblock
  · exact ⟨h.threads, h₁⟩
  · exact fun _ => ((queues_of_represents h.mem).pop hx).2.1

theorem semaphoreInc (h : Refines k a) (s : Sema) : Option.Rel Refines (k.semaphoreInc s) (a.semaphoreInc s) := by
  obtain ⟨th, m⟩ := k
  obtain ⟨th', q⟩ := a
  obtain ⟨rfl, hm⟩ := h
  refine rel_map (R := Refines) ?_ fun _ _ hk => hk.setInterruptLevel _
  apply wakeWaiter
  exact ⟨rfl, hm⟩

end Refines

end Dunkos
