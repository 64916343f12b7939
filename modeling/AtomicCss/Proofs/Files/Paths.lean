import AtomicCss.Files.Path
import AtomicCss.Proofs.Bytes.Access
import Mathlib.Data.List.TakeWhile
set_option autoImplicit false

namespace AtomicCss

namespace Path

def above (path : Text) : Text := (path.reverse.dropWhile (· != '/')).reverse

def last (path : Text) : Text := (lastReversed path.reverse).reverse

theorem above_append_last (path : Text) : above path ++ last path = path := by
  rw [above, last, lastReversed, ← List.reverse_append, List.takeWhile_append_dropWhile,
    List.reverse_reverse]

theorem not_mem_last (path : Text) : '/' ∉ last path := by
  intro h
  rw [last, List.mem_reverse] at h
  simpa using List.mem_takeWhile_imp h

theorem above_eq (path : Text) : above path = [] ∨ ∃ dir, above path = dir ++ ['/'] := by
  cases h : path.reverse.dropWhile (· != '/') with
  | nil =>
    left
    rw [above, h]
    rfl
  | cons c r =>
    have hc := List.head?_dropWhile_not (· != '/') path.reverse
    rw [h] at hc
    obtain rfl : c = '/' := by simpa using hc
    exact .inr ⟨r.reverse, by rw [above, h, List.reverse_cons]⟩

theorem components_append_slash (dir rest : Text) :
    components (dir ++ '/' :: rest) = components dir ++ components rest := by
  rw [components, List.splitOn_eq_splitOnP, List.splitOnP_append_cons _ _ (by rfl),
    List.filter_append]
  rfl

theorem components_of_not_mem {name : Text} (h : '/' ∉ name) (hne : name ≠ []) :
    components name = [name] := by
  rw [components, List.splitOn_eq_singleton h]
  simp [hne]

theorem head?_of_components_eq_nil {path : Text} (h : components path = []) (hne : path ≠ []) :
    path.head? = some '/' := by
  cases path with
  | nil => exact absurd rfl hne
  | cons c rest =>
    by_contra hslash
    have hc : (c == '/') = false := by simpa using hslash
    rw [components, List.splitOn_eq_splitOnP, List.splitOnP_cons_eq_if_modifyHead, hc] at h
    cases hrest : rest.splitOnP (· == '/') with
    | nil => exact List.splitOnP_ne_nil _ _ hrest
    | cons piece pieces => simp [hrest] at h

theorem components_append {path ending : Text} (h : '/' ∉ ending) (hne : last path ++ ending ≠ []) :
    components (path ++ ending) = components (above path) ++ [last path ++ ending] := by
  have hname : '/' ∉ last path ++ ending := by
    rw [List.mem_append, not_or]
    exact ⟨not_mem_last path, h⟩
  conv => lhs; rw [← above_append_last path, List.append_assoc]
  rcases above_eq path with habove | ⟨dir, habove⟩
  · rw [habove, List.nil_append, components_of_not_mem hname hne]
    rfl
  · rw [habove, components_append_slash, List.append_assoc, List.singleton_append,
      components_append_slash, components_of_not_mem hname hne]
    simp [components]

end Path
end AtomicCss
