import Mathlib.Data.List.Induction
import Mathlib.Data.List.Nodup
set_option autoImplicit false

namespace AtomicCss

variable {α β : Type}

theorem nodup_eraseDups [BEq α] [LawfulBEq α] (l : List α) : l.eraseDups.Nodup := by
  match l with
  | [] => exact List.nodup_nil
  | a :: r =>
    have hrest := nodup_eraseDups (r.filter fun b => !b == a)
    rw [List.eraseDups_cons, List.nodup_cons, List.mem_eraseDups]
    exact ⟨by simp, hrest⟩
termination_by l.length
decreasing_by exact Nat.lt_succ_of_le (List.length_filter_le _ _)

theorem eraseDups_map [BEq α] [LawfulBEq α] [BEq β] [LawfulBEq β] {f : α → β} {l : List α}
    (hf : ∀ a ∈ l, ∀ b ∈ l, f a = f b → a = b) : (l.map f).eraseDups = l.eraseDups.map f := by
  match l with
  | [] => rfl
  | a :: r =>
    have hsame : r.filter ((fun b => !b == f a) ∘ f) = r.filter fun b => !b == a := by
      refine List.filter_congr fun b hb => ?_
      have hiff : f b = f a ↔ b = a :=
        ⟨hf b (List.mem_cons_of_mem _ hb) a List.mem_cons_self, congrArg f⟩
      rw [Function.comp_apply, Bool.eq_iff_iff]
      simp [hiff]
    have hrest := eraseDups_map (f := f) (l := r.filter fun b => !b == a) fun b hb c hc =>
      hf b (List.mem_cons_of_mem _ (List.mem_filter.1 hb).1) c
        (List.mem_cons_of_mem _ (List.mem_filter.1 hc).1)
    rw [List.map_cons, List.eraseDups_cons, List.eraseDups_cons, List.map_cons, List.filter_map,
      hsame, hrest]
termination_by l.length
decreasing_by exact Nat.lt_succ_of_le (List.length_filter_le _ _)

section

variable [DecidableEq α]

def appendNew (l : List α) (a : α) : List α := if a ∈ l then l else l ++ [a]

variable [BEq α] [LawfulBEq α]

theorem eraseDups_append_singleton (l : List α) (a : α) :
    (l ++ [a]).eraseDups = appendNew l.eraseDups a := by
  rw [List.eraseDups_append, appendNew]
  have hone : [a].eraseDups = [a] := by simp [List.eraseDups_cons]
  by_cases h : a ∈ l <;> simp [List.removeAll, List.mem_eraseDups, h, hone]

theorem foldl_appendNew (l : List α) : l.foldl appendNew [] = l.eraseDups := by
  induction l using List.reverseRecOn with
  | nil => rfl
  | append_singleton l a ih => rw [List.foldl_append, ih, eraseDups_append_singleton]; rfl

theorem pairwise_eraseDups (l : List α) :
    l.eraseDups.Pairwise fun a b => l.idxOf a < l.idxOf b := by
  induction l using List.reverseRecOn with
  | nil => exact .nil
  | append_singleton l a ih =>
    have hkeep : ∀ b ∈ l.eraseDups, (l ++ [a]).idxOf b = l.idxOf b := fun b hb =>
      List.idxOf_append_of_mem (List.mem_eraseDups.1 hb)
    have hold : l.eraseDups.Pairwise fun b c => (l ++ [a]).idxOf b < (l ++ [a]).idxOf c :=
      ih.imp_of_mem fun hb hc hlt => by rwa [hkeep _ hb, hkeep _ hc]
    rw [eraseDups_append_singleton, appendNew]
    split
    · exact hold
    next hnew =>
      rw [List.mem_eraseDups] at hnew
      refine List.pairwise_append.2 ⟨hold, List.pairwise_singleton _ _, fun b hb c hc => ?_⟩
      obtain rfl := List.mem_singleton.1 hc
      rw [hkeep b hb, List.idxOf_append_of_notMem hnew]
      exact Nat.lt_of_lt_of_le (List.idxOf_lt_length_of_mem (List.mem_eraseDups.1 hb))
        (Nat.le_add_right _ _)

end

end AtomicCss
