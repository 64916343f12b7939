set_option autoImplicit false

namespace AtomicCss

def twoTo (n : Nat) : Nat := 1 <<< n

def tenTo (n : Nat) : Nat := Nat.pow 10 n

end AtomicCss
