import DShowServer.Options.Model

/-!
# The codec's GUID on the command line

The clients print the GUID in pieces of a least width, and the server scans pieces of
a greatest width. Every piece of a `DS_GUID` fits its width, so that the two widths
meet: what is scanned is what was printed (`sscanf_text`, `set_guid`).
-/

namespace DShow.Options

open Numeral

namespace DsGuid

variable (g : DsGuid)

/-- The eleven numbers of a GUID. -/
def numbers : List Nat := g.f1.toNat :: g.f2.toNat :: g.f3.toNat :: g.f4.toList.map BitVec.toNat

theorem length_numbers : g.numbers.length = 11 := by simp [numbers]

/-- Behind the last hyphen the eight bytes follow each other without anything between them. -/
theorem sscanf_bytes (bs : Vector (BitVec 8) 8) :
    sscanf (List.replicate 8 (.hex 2)) (bs.toList.flatMap fun b => padded 2 b.toNat) =
      (bs.toList.map BitVec.toNat).map Int.ofNat := by
  have hlt : ∀ n ∈ bs.toList.map BitVec.toNat, n < 16 ^ 2 := fun n hn => by
    obtain ⟨b, -, rfl⟩ := List.mem_map.mp hn
    exact b.isLt
  have hrun := sscanf_run Nat.two_pos hlt
  rwa [List.length_map, Vector.length_toList, List.flatMap_map] at hrun

theorem sscanf_text : sscanf guidFormat g.text = g.numbers.map Int.ofNat := by
  have h₁ : g.f1.toNat < 16 ^ 8 := g.f1.isLt
  have h₂ : g.f2.toNat < 16 ^ 4 := g.f2.isLt
  have h₃ : g.f3.toNat < 16 ^ 4 := g.f3.isLt
  have hformat : guidFormat = .hex 8 :: .lit '-' :: .hex 4 :: .lit '-' :: .hex 4 :: .lit '-' ::
      List.replicate 8 (.hex 2) := rfl
  rw [hformat, text, List.append_assoc, List.append_assoc, sscanf_hex (by decide) h₁, List.cons_append,
    sscanf_lit, sscanf_hex (by decide) h₂, List.cons_append, sscanf_lit, sscanf_hex (by decide) h₃,
    sscanf_lit, sscanf_bytes]
  rfl

theorem assigned_number {w : Nat} {i : Nat} {x : BitVec w} (hi : g.numbers[i]? = some x.toNat)
    (y : BitVec w) : assigned (g.numbers.map Int.ofNat) i y = x := by
  rw [assigned, List.getElem?_map, hi]
  simp

end DsGuid

/-- The settings once `-g` was given the text of a GUID. -/
theorem scanGuid_text (o : Settings) (g : DsGuid) : o.scanGuid g.text = { o with guid := g } := by
  have hf4 : (Vector.ofFn fun i => assigned (g.numbers.map Int.ofNat) (3 + i) o.guid.f4[i]) = g.f4 := by
    apply Vector.ext
    intro i hi
    rw [Vector.getElem_ofFn]
    refine g.assigned_number ?_ _
    rw [Nat.add_comm, DsGuid.numbers]
    simp [hi]
  rw [Settings.scanGuid, DsGuid.sscanf_text, hf4, g.assigned_number rfl, g.assigned_number rfl,
    g.assigned_number rfl]

/-- All eleven fields of the server's GUID are assigned, each what the client's was. -/
theorem set_guid (o : Settings) (g : DsGuid) :
    (sscanf guidFormat g.text).length = 11 ∧
      o.set (.option 'g' (some g.text)) = { o with guid := g } := by
  refine ⟨?_, scanGuid_text o g⟩
  rw [DsGuid.sscanf_text, List.length_map, g.length_numbers]

end DShow.Options
