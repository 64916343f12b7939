import AtomicCss.Proofs.Input.Ordered
set_option autoImplicit false

namespace AtomicCss.Description

def Exportable (d : Description) : Prop := ∀ n ∈ d.namespaces, isExportName n.1 = true

variable {d e : Description}

theorem Exportable.add (hd : d.Exportable) {name : Text} {b : Binding} (h : d.add name b = .ok e) :
    e.Exportable := by
  rcases add_ok h with heq | ⟨s, _, hname, heq⟩
  · exact fun n hn => hd n (heq ▸ hn)
  · intro n hn
    rw [heq] at hn
    rcases List.mem_append.1 hn with hn | hn
    · exact hd n hn
    · rw [List.mem_singleton.1 hn]
      exact hname

theorem Accepted.exportable (h : d.Accepted) : d.Exportable := by
  obtain ⟨bindings, _, _, h⟩ := h
  have hempty : empty.Exportable := fun _ hn => absurd hn List.not_mem_nil
  exact foldlM_keeps hempty (fun _ _ _ hd hadd => hd.add hadd) h

end AtomicCss.Description
