import RiscvEmu.Serial.Stream

/-!
# The output of the serial port

The host should see the bytes of the guest, without the queries and without what is held back.  The
port prints each byte as a character, and a character takes two bytes from `0x80` up.  So the output
is the right one exactly for plain ASCII.
-/

namespace RiscvEmu

namespace Uart16550

open Matcher

/-- The output and what is held back make up the stream without its queries. -/
def Transparent (ready : Bool) (ops : List Op) : Prop :=
  ∃ held, Partial dsrQuery (stream ops) held ∧
    (run (start ready) ops).stdout ++ held = strip dsrQuery 0 (stream ops)

theorem utf8_ascii {b : U8} (h : b < 0x80) : utf8 b = [b] := if_pos h

theorem utf8_length {b : U8} (h : ¬ b < 0x80) : (utf8 b).length = 2 := by
  rw [utf8, if_neg h]
  rfl

theorem length_le_flatMap_utf8 (bs : List U8) : bs.length ≤ (bs.flatMap utf8).length := by
  induction bs with
  | nil => exact Nat.le_refl _
  | cons b bs ih =>
      rw [List.flatMap_cons, List.length_append, List.length_cons]
      by_cases hb : b < 0x80
      · rw [utf8_ascii hb, List.length_singleton]
        omega
      · rw [utf8_length hb]
        omega

/-- Printing leaves bytes as they are exactly when all of them are ASCII. -/
theorem flatMap_utf8_eq_iff (bs : List U8) : bs.flatMap utf8 = bs ↔ ∀ b ∈ bs, b < 0x80 := by
  induction bs with
  | nil => exact iff_of_true rfl nofun
  | cons b bs ih =>
      rw [List.forall_mem_cons, List.flatMap_cons]
      by_cases hb : b < 0x80
      · rw [utf8_ascii hb, List.singleton_append, List.cons_inj_right, ih, and_iff_right hb]
      · refine iff_of_false (fun heq => ?_) fun h => hb h.1
        have hlen := congrArg List.length heq
        have hrest := length_le_flatMap_utf8 bs
        rw [List.length_append, utf8_length hb, List.length_cons] at hlen
        omega

theorem dsrQuery_ascii : ∀ b ∈ dsrQuery, b < 0x80 := by decide

/-- The output is the right one exactly when the guest transmits nothing but ASCII. -/
theorem transparent_iff (ready : Bool) (ops : List Op) :
    Transparent ready ops ↔ ∀ b ∈ stream ops, b < 0x80 := by
  obtain ⟨out, found, hwatching, -⟩ := (watching_start ready).run ops
  rw [List.nil_append] at hwatching
  have hstrip := hwatching.dsr.strip_eq dsrQuery_marked
  have hheld := hwatching.dsr.partial_take
  have hmem (b : U8) (hb : b ∉ dsrQuery) : b ∈ out ↔ b ∈ stream ops := by
    rw [← mem_strip dsrQuery_marked hb (stream ops) 0 nofun, hstrip, List.mem_append]
    exact (or_iff_left fun h => hb (List.mem_of_mem_take h)).symm
  have houtput : Transparent ready ops ↔ out.flatMap utf8 = out := by
    constructor
    · rintro ⟨held, hpartial, heq⟩
      rw [hwatching.printed, hstrip, hpartial.unique hheld] at heq
      exact List.append_cancel_right heq
    · intro heq
      exact ⟨_, hheld, by rw [hwatching.printed, hstrip, heq]⟩
  rw [houtput, flatMap_utf8_eq_iff]
  constructor
  · intro hout b hb
    by_cases hquery : b ∈ dsrQuery
    · exact dsrQuery_ascii b hquery
    · exact hout b ((hmem b hquery).mpr hb)
  · intro hstream b hb
    by_cases hquery : b ∈ dsrQuery
    · exact dsrQuery_ascii b hquery
    · exact hstream b ((hmem b hquery).mp hb)

/-- The first byte of a character in two bytes comes out as two bytes. -/
theorem store_highByte_splits : ¬ ∀ ready ops, Transparent ready ops := by
  intro hall
  obtain ⟨held, -, heq⟩ := hall false [.store 0x1000_0000 0xC3]
  have hlen := congrArg List.length heq
  have hout : (run (start false) [.store 0x1000_0000 0xC3]).stdout.length = 2 := by decide
  have hstrip : (strip dsrQuery 0 (stream [.store 0x1000_0000 0xC3])).length = 1 := by decide
  rw [List.length_append, hout, hstrip] at hlen
  omega

end Uart16550

end RiscvEmu
