/-
# Addresses

Memory has 4096 places, so an address has twelve bits. A number that is larger
stands for the address that its low twelve bits give.

Key definitions: `Address`, `Address.wrap`.
-/

namespace ChipEight

/-- A twelve-bit address. -/
abbrev Address := Fin 4096

namespace Address

/-- The bottom of memory. -/
def zero : Address := ⟨0, by decide⟩

/-- The address that the low twelve bits of a number give. -/
def wrap (n : Nat) : Address := ⟨n % 4096, Nat.mod_lt n (by decide)⟩

@[simp] theorem val_wrap (n : Nat) : (wrap n).val = n % 4096 := rfl

end Address
end ChipEight
