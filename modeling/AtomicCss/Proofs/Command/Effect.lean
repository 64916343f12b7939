import AtomicCss.Input.Load
import AtomicCss.Proofs.Command.Artifacts
set_option autoImplicit false

namespace AtomicCss.Command

section

variable {hash : Text → Text}

variable [DocumentReader] [Stylesheet.Library]

end

variable {o : Options} {w r : Workspace} {a : Artifacts}

end AtomicCss.Command
