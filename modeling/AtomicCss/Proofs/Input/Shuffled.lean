import AtomicCss.Proofs.Input.Documents
import AtomicCss.Proofs.Input.Ordered
set_option autoImplicit false

namespace AtomicCss

namespace SortedMap

variable {κ ν : Type} [Ord κ] [Std.LawfulEqOrd κ]

theorem perm_insert {k : κ} {m : SortedMap κ ν} (h : k ∉ m.map (·.1)) (v : ν) :
    (insert k v m).Perm ((k, v) :: m) := by
  induction m with
  | nil => exact .refl _
  | cons e r ih =>
    rw [List.map_cons, List.mem_cons, not_or] at h
    unfold insert
    split
    · exact .refl _
    next heq => exact absurd (Std.LawfulEqOrd.eq_of_compare heq) h.1
    · exact ((ih h.2).cons e).trans (.swap (k, v) e r)

theorem perm_foldl_insert {l : List (κ × ν)} {m : SortedMap κ ν}
    (h : (l.map (·.1) ++ m.map (·.1)).Nodup) :
    (l.foldl (fun m e => insert e.1 e.2 m) m).Perm (l ++ m) := by
  induction l generalizing m with
  | nil => exact .refl _
  | cons e l ih =>
    rw [List.map_cons, List.cons_append, List.nodup_cons, List.mem_append, not_or] at h
    have hinsert := perm_insert h.1.2 e.2
    have hkeys : (l.map (·.1) ++ (insert e.1 e.2 m).map (·.1)).Nodup := by
      refine (List.Perm.append_left _ (hinsert.map _)).nodup_iff.2 ?_
      refine List.perm_middle.nodup_iff.2 (List.nodup_cons.2 ⟨?_, h.2⟩)
      rw [List.mem_append, not_or]
      exact h.1
    exact (ih hkeys).trans ((hinsert.append_left l).trans List.perm_middle)

theorem perm_ofList {l : List (κ × ν)} (h : (l.map (·.1)).Nodup) : (ofList l).Perm l := by
  have hperm := perm_foldl_insert (l := l) (m := []) (by simpa using h)
  rwa [List.append_nil] at hperm

theorem ofList_eq_of_perm [Std.TransOrd κ] {l k : List (κ × ν)} (h : (l.map (·.1)).Nodup)
    (hperm : l.Perm k) : ofList l = ofList k := by
  have hk : (k.map (·.1)).Nodup := (hperm.map _).nodup_iff.1 h
  refine List.Perm.eq_of_pairwise (fun a b _ _ hab hba => ?_) (ascending_ofList l)
    (ascending_ofList k) (((perm_ofList h).trans hperm).trans (perm_ofList hk).symm)
  rw [Std.OrientedCmp.gt_of_lt hab] at hba
  cases hba

end SortedMap

namespace StatedBinding

def Distinct : StatedBinding → Prop
  | .text _ | .list _ => True
  | .styles l => (l.map (·.1)).Nodup

/-- The same binding, but for the order of its styles. -/
inductive Shuffles : StatedBinding → StatedBinding → Prop where
  | refl (a : StatedBinding) : Shuffles a a
  | styles {l k : List (Text × Text)} : l.Perm k → Shuffles (.styles l) (.styles k)

theorem Shuffles.binding_eq {a b : StatedBinding} (h : a.Shuffles b) (ha : a.Distinct) :
    a.binding = b.binding := by
  cases h with
  | refl => rfl
  | styles hperm => exact congrArg Binding.styles (SortedMap.ofList_eq_of_perm ha hperm)

/-- Different names of bindings, and of the styles in each. -/
structure DistinctKeys (l : List (Text × StatedBinding)) : Prop where
  names : (l.map (·.1)).Nodup
  styles : ∀ e ∈ l, e.2.Distinct

/-- The same bindings in any order, each with its styles in any order. -/
def Shuffled (l k : List (Text × StatedBinding)) : Prop :=
  ∃ m, l.Perm m ∧ m.Forall₂ (fun a b => a.1 = b.1 ∧ a.2.Shuffles b.2) k

theorem Shuffled.ofList_eq {l k : List (Text × StatedBinding)} (h : Shuffled l k)
    (hl : DistinctKeys l) : SortedMap.ofList (l.map fun e => (e.1, e.2.binding)) =
      SortedMap.ofList (k.map fun e => (e.1, e.2.binding)) := by
  obtain ⟨m, hperm, hsame⟩ := h
  have hmap : m.map (fun e => (e.1, e.2.binding)) = k.map fun e => (e.1, e.2.binding) := by
    have hdistinct : ∀ e ∈ m, e.2.Distinct := fun e he => hl.styles e (hperm.mem_iff.2 he)
    clear hperm
    induction hsame with
    | nil => rfl
    | @cons a b m k hab _ ih =>
      rw [List.forall_mem_cons] at hdistinct
      rw [List.map_cons, List.map_cons, ih hdistinct.2, hab.1, hab.2.binding_eq hdistinct.1]
  rw [← hmap]
  refine SortedMap.ofList_eq_of_perm ?_ (hperm.map _)
  rw [List.map_map]
  exact hl.names

end StatedBinding

namespace Description

open StatedBinding in
/--
The order of a document does not matter. It is loaded, or the same of its bindings is refused, and
compiled alike.
-/
theorem load_shuffled {s t : Text} {l k : List (Text × StatedBinding)} (hs : Json.IsDocument s l)
    (ht : Json.IsDocument t k) (hl : DistinctKeys l) (h : Shuffled l k) :
    (∃ r : Except BindingError Description, load .json s = r.mapError .binding ∧
      load .json t = r.mapError .binding) ∧
    ∀ options, (load .json s).map (compile · options) = (load .json t).map (compile · options) := by
  have hload : ∀ {t k}, Json.IsDocument t k → load .json t =
      (ofBindings (.ofList (k.map fun e => (e.1, e.2.binding)))).mapError .binding := by
    intro t k ht
    rw [load, ht.document_eq]
    rfl
  refine ⟨⟨_, hload hs, ?_⟩, fun options => ?_⟩
  · rw [hload ht, h.ofList_eq hl]
  · rw [hload hs, hload ht, h.ofList_eq hl]

/-- The second document writes a style name with an escape. -/
theorem load_shuffled_escaped :
    let top := (['A'], "top:0".toList)
    let red := (['B'], "color:red".toList)
    let l := [(['s'], StatedBinding.styles [top, red]), ("_end".toList, .text "@x".toList)]
    let k := [("_end".toList, StatedBinding.text "@x".toList), (['s'], .styles [red, top])]
    let s := "\x7b\"s\": \x7b\"A\": \"top:0\", \"B\": \"color:red\"\x7d, ".toList
      ++ "\"_end\": \"@x\"\x7d".toList
    let t := "\x7b\"_end\":\"@x\",\"s\":\x7b\"\\u0042\":\"color:red\",".toList
      ++ "\"A\":\"top:0\"\x7d\x7d".toList
    Json.IsDocument s l ∧ Json.IsDocument t k ∧ StatedBinding.DistinctKeys l ∧
      StatedBinding.Shuffled l k ∧ ∃ d out, load .json s = .ok d ∧ load .json t = .ok d ∧
        compile d ⟨[], .plain⟩ = .ok out ∧
        out.css = ".a\x7btop:0\x7d\n.b\x7bcolor:red\x7d\n@x".toList := by
  intro top red l k s t
  have hnone := Json.spaces_nil
  have hspace : Json.Spaces [' '] := List.all_eq_true.1 rfl
  have hname := Json.isLiteral_of_plain (t := ['s']) (by simp)
  have hA := Json.isLiteral_of_plain (t := ['A']) (by simp)
  have hB := Json.isLiteral_of_plain (t := ['B']) (by simp)
  have hescaped : Json.IsLiteral "\"\\u0042\"".toList ['B'] :=
    .mk (.cons (.number (n := 0x42) rfl rfl rfl) .nil)
  have htop := Json.isLiteral_of_plain (t := "top:0".toList) (by simp)
  have hred := Json.isLiteral_of_plain (t := "color:red".toList) (by simp)
  have hend := Json.isLiteral_of_plain (t := "_end".toList) (by simp)
  have hx := Json.isLiteral_of_plain (t := "@x".toList) (by simp)
  have hs : Json.IsDocument s l :=
    .mk hnone (.first hnone (.mk hname hnone hspace (.styles
      (.first hnone (.mk hA hnone hspace htop)
        (.next hnone hspace (.mk hB hnone hspace hred) (.nil hnone)))))
      (.next hnone hspace (.mk hend hnone hspace (.text hx)) (.nil hnone))) hnone
  have ht : Json.IsDocument t k :=
    .mk hnone (.first hnone (.mk hend hnone hnone (.text hx))
      (.next hnone hnone (.mk hname hnone hnone (.styles
        (.first hnone (.mk hescaped hnone hnone hred)
          (.next hnone hnone (.mk hA hnone hnone htop) (.nil hnone))))) (.nil hnone))) hnone
  have hl : StatedBinding.DistinctKeys l :=
    ⟨by decide, by simp [l, top, red, StatedBinding.Distinct]⟩
  have h : StatedBinding.Shuffled l k :=
    ⟨_, .swap _ _ _, .cons ⟨rfl, .refl _⟩ (.cons ⟨rfl, .styles (.swap _ _ _)⟩ .nil)⟩
  obtain ⟨⟨r, hsr, htr⟩, _⟩ := load_shuffled hs ht hl h
  obtain ⟨d, hd, hcss⟩ := exists_ok (x := load .json s) (p := fun d =>
    (compile d ⟨[], .plain⟩).toOption.any
      (·.css == ".a\x7btop:0\x7d\n.b\x7bcolor:red\x7d\n@x".toList)) (by decide +kernel)
  obtain ⟨out, hout, hcss⟩ := exists_ok hcss
  exact ⟨hs, ht, hl, h, d, out, hd, htr.trans (hsr.symm.trans hd), hout, eq_of_beq hcss⟩

end Description
end AtomicCss
