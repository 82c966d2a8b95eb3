import HackVM.Proofs.Capture
import HackVM.Proofs.Simulation
import HackVM.Proofs.Spelling
import HackVM.Proofs.Variables

/-!
# Statics have cells of their own

The symbol of a static is spelt with the name of its unit and its index, and both can be told
from it. A variable has a cell of its own, behind those with a fixed use. So two accesses to
statics go to one cell just if they have the same unit and the same index, as long as no label
takes the symbol of a static.
-/

namespace HackVM

open Assembly Instruction Sequence

/-- At `a` the address of the static element `i` of `unit` is loaded, to push the element or to
pop into it: a pop takes the value off the stack first. -/
inductive StaticAt (o : Options) (units : List SourceUnit) : Nat → String → Nat → Prop
  | push {s : Site} {n : Numbering} {a i : Nat} :
    Placed (pieces o units) a (.command s n) → s.command = .push .static i →
      StaticAt o units a s.place.unit i
  | pop {s : Site} {n : Numbering} {a i : Nat} :
    Placed (pieces o units) a (.command s n) → s.command = .pop .static i →
      StaticAt o units (a + words popD) s.place.unit i

/-- An access belongs to the code of a line of the source. -/
theorem StaticAt.placed {o : Options} {units : List SourceUnit} {a i : Nat} {unit : String}
    (h : StaticAt o units a unit i) :
    ∃ s n b, Placed (pieces o units) b (.command s n) ∧
      s.static? = some (staticSymbol unit i) ∧ a = b + s.accessOffset := by
  cases h with
  | @push s n a i hp hc =>
    exact ⟨s, n, a, hp, by rw [Site.static?, hc], by rw [Site.accessOffset, hc]; rfl⟩
  | @pop s n a i hp hc =>
    exact ⟨s, n, a, hp, by rw [Site.static?, hc], by rw [Site.accessOffset, hc]⟩

theorem Register.cell_lt (g : Register) : g.cell < MemoryMap.firstVariable := by
  cases g <;> decide

/-- What is accessed at one place is one cell. -/
theorem Rom.AccessesAt.unique {r : Rom} {a : Nat} {w x : Word} (hw : r.AccessesAt a w)
    (hx : r.AccessesAt a x) : w = x := by
  have h := hw.1
  rw [hx.1] at h
  cases h
  rfl

namespace Translated

variable {o : Options} {units : List SourceUnit} {p : Program} {a i : Nat} {unit : String}

theorem accessesAt_staticAt (h : Translated o units p) (hs : StaticAt o units a unit i) :
    (Rom.link p.instructions).AccessesAt a
        ((Rom.link p.instructions).value (staticSymbol unit i)) ∧
      load (.symbol (staticSymbol unit i)) ∈ p.instructions := by
  obtain ⟨s, n, b, hp, hn, rfl⟩ := hs.placed
  exact h.accessesAt_static hp hn

/-- There are fewer addresses of variables than words, so none of them wraps. -/
theorem variableAddress?_lt (h : Translated o units p) {name : String} {c : Nat}
    (hv : (Rom.link p.instructions).variableAddress? name = some c) :
    c < MemoryMap.firstVariable + p.executableCount := by
  have hm := Rom.mem_of_lookup hv
  rw [h.cells_link] at hm
  have hc := exists_mem_zipIdx_iff.1 ⟨_, hm, rfl⟩
  have hl := h.length_undefinedNames_le
  omega

/-- The symbol of a static that is no label stands for the address of its variable. -/
theorem variableAddress?_static (h : Translated o units p)
    (hc : p.executableCount ≤ maxWord - MemoryMap.firstVariable)
    (hs : StaticAt o units a unit i) (hd : staticSymbol unit i ∉ labels p.instructions) :
    (Rom.link p.instructions).variableAddress? (staticSymbol unit i) =
        some ((Rom.link p.instructions).value (staticSymbol unit i)).toNat ∧
      MemoryMap.firstVariable ≤
        ((Rom.link p.instructions).value (staticSymbol unit i)).toNat := by
  have hp : MemoryMap.predefined.lookup (staticSymbol unit i) = none :=
    lookup_predefined_of_mem (.inr rfl) (dot_mem_staticSymbol unit i)
  have hl := Rom.labelAddress?_eq_none_iff.2 hd
  obtain ⟨c, hv, hf⟩ := Rom.exists_variableAddress? (h.accessesAt_staticAt hs).2 hp hl
  have hb := h.variableAddress?_lt hv
  have hm : maxWord = 65535 := rfl
  have h16 : MemoryMap.firstVariable = 16 := rfl
  rw [Rom.value_of_variable hp hl hv, toNat_ofNat_of_le (by omega)]
  exact ⟨hv, hf⟩

end Translated

variable {o : Options} {units : List SourceUnit} {p : Program}

/-- Statics are apart in memory. If no label has the symbol of a static, then every push and
pop of a static goes to the variable of its unit and index, behind the registers and the
segment `temp`, and two of them go to the same cell just if unit and index are the same. -/
theorem statics_of_translated (h : translate o units = .ok p)
    (hc : p.executableCount ≤ maxWord - MemoryMap.firstVariable)
    (hd : ∀ a u i, StaticAt o units a u i → staticSymbol u i ∉ labels p.instructions) :
    ∃ r, Rom.load p.text = .ok r ∧
      (∀ a u i, StaticAt o units a u i → ∃ w, r.AccessesAt a w ∧
        r.variableAddress? (staticSymbol u i) = some w.toNat ∧
        MemoryMap.firstVariable ≤ w.toNat ∧ (∀ g : Register, w.toNat ≠ g.cell) ∧
        ∀ k < MemoryMap.tempSize, w.toNat ≠ MemoryMap.tempBase + k) ∧
      ∀ a u i w b v j x, StaticAt o units a u i → StaticAt o units b v j →
        r.AccessesAt a w → r.AccessesAt b x → (w = x ↔ u = v ∧ i = j) := by
  have ht := translated_of_translate h
  refine ⟨Rom.link p.instructions, ht.load_text, ?_, ?_⟩
  · intro a u i hs
    obtain ⟨hv, hf⟩ := ht.variableAddress?_static hc hs (hd a u i hs)
    refine ⟨_, (ht.accessesAt_staticAt hs).1, hv, hf, ?_, ?_⟩
    · intro g
      exact Nat.ne_of_gt (Nat.lt_of_lt_of_le g.cell_lt hf)
    · intro k hk
      have hb : MemoryMap.tempBase + MemoryMap.tempSize ≤ MemoryMap.firstVariable := by decide
      omega
  · intro a u i w b v j x hs hs' hw hx
    have hwu := hw.unique (ht.accessesAt_staticAt hs).1
    have hxv := hx.unique (ht.accessesAt_staticAt hs').1
    have hu := (ht.variableAddress?_static hc hs (hd a u i hs)).1
    have hv := (ht.variableAddress?_static hc hs' (hd b v j hs')).1
    rw [← hwu] at hu
    rw [← hxv] at hv
    constructor
    · rintro rfl
      exact staticSymbol_inj.1 (Rom.variableAddress?_injective hu hv)
    · rintro ⟨rfl, rfl⟩
      rw [hwu, hxv]

/-- Two units with dots and digits in their names. The static 1 of `A` has the name of the other
unit as its symbol. -/
def dottedUnits : List SourceUnit :=
  [⟨"A", "function Sys.init 0\npush static 1"⟩, ⟨"A.1", "pop static 0\npop static 1"⟩]

/-- The static 1 of `A` is read from another cell than the static 0 of `A.1` is written to. -/
theorem statics_of_dottedUnits :
    ∃ p r w x, translate ⟨false, .auto⟩ dottedUnits = .ok p ∧
      p.executableCount ≤ maxWord - MemoryMap.firstVariable ∧ Rom.load p.text = .ok r ∧
      r.AccessesAt 53 w ∧ r.AccessesAt 65 x ∧ w ≠ x := by
  obtain ⟨p, hp⟩ : ∃ p, translate ⟨false, .auto⟩ dottedUnits = .ok p := ⟨_, rfl⟩
  have ht := translated_of_translate hp
  have hc : p.executableCount ≤ maxWord - MemoryMap.firstVariable := by
    rw [ht.executableCount_eq]
    decide
  have hd : ∀ a u i, StaticAt ⟨false, .auto⟩ dottedUnits a u i →
      staticSymbol u i ∉ labels p.instructions := by
    intro a u i h
    obtain ⟨s, n, b, hp, hn, -⟩ := h.placed
    have key : ∀ s ∈ sites dottedUnits, ∀ name ∈ s.static?,
        name ∉ labels (instructions ⟨false, .auto⟩ (pieces ⟨false, .auto⟩ dottedUnits)) := by
      decide
    rw [ht.instructions]
    exact key s (mem_sites_of_mem_pieces hp.mem) _ hn
  have hs : StaticAt ⟨false, .auto⟩ dottedUnits 53 "A" 1 :=
    StaticAt.push (s := ⟨⟨"A", ⟨"Sys.init"⟩⟩, "push static 1", .push .static 1⟩) (n := ⟨1, 0⟩)
      (placed_of_pieceAt? (by rfl)).1 rfl
  have hs' : StaticAt ⟨false, .auto⟩ dottedUnits 65 "A.1" 0 :=
    StaticAt.pop (s := ⟨⟨"A.1", ⟨"A.1"⟩⟩, "pop static 0", .pop .static 0⟩) (n := ⟨1, 0⟩)
      (placed_of_pieceAt? (by rfl)).1 rfl
  obtain ⟨r, hr, hv, hi⟩ := statics_of_translated hp hc hd
  obtain ⟨w, hw, -⟩ := hv 53 "A" 1 hs
  obtain ⟨x, hx, -⟩ := hv 65 "A.1" 0 hs'
  refine ⟨p, r, w, x, hp, hc, hr, hw, hx, ?_⟩
  intro he
  exact absurd ((hi _ _ _ _ _ _ _ _ hs hs' hw hx).1 he).2 (by decide)

end HackVM
