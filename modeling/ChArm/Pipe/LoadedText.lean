import ChArm.Pipe.StageOrder
import ChArm.Pipe.ControlFlow

/-!
# The program stays where it was loaded

Without a cache no data access that signals no error changes an instruction, so
what fetch delivers depends on the image and the PC alone: the instruction the
image has there (`Image.instrAt`), or the end of the program (`Image.EndsAt`).

* `fetched_instrAt` — what is fetched in earnest is what the image has there.
* `fetchStatus_hlt_iff` — fetch delivers an `HLT` once it has, and where the program ends.
-/

namespace ChArm

/-- Memory systems that deliver the same. -/
abbrev Memory.Agrees (m m' : Memory) : Prop := m.Agree (fun _ => False) m'

/-! ## The program of an image -/

/-- Is this the address of an instruction? -/
structure Image.InText (img : Image) (pc : Word) : Prop where
  ne_zero : pc ≠ 0
  inImem : addrInImem img.memory pc = true
  aligned : pc &&& 0x3#64 = 0

/-- The word the image has at an address. -/
def Image.word (img : Image) (pc : Word) : BitVec 32 :=
  (leValue (fun k => img.ptable.byteAt (pc + BitVec.ofNat 64 k)) 4).setWidth 32

/-- The instruction the image has at an address. -/
def Image.instrAt (img : Image) (pc : Word) : DInstr := fetchedInstr false pc (img.word pc) false

/-- Does the program end at this address, with address 0 or an `HLT`? -/
def Image.EndsAt (img : Image) (pc : Word) : Prop :=
  pc = 0 ∨ img.InText pc ∧ (img.instrAt pc).status = .hlt

theorem Image.instrAt_pc (img : Image) (pc : Word) : (img.instrAt pc).pc = pc := by
  rw [DInstr.pc, instrAt, fetchedInstr_seqSuccPC]
  exact BitVec.add_sub_cancel _ _

/-! ## Memory systems that hold it -/

/-- No cache, and the segments and instructions of the image. -/
structure Memory.Loaded (img : Image) (m : Memory) : Prop where
  uncached : m.Uncached
  segStart : m.segStart = img.segStart
  text : ∀ a, img.memory.textByte a → m.ptable.byteAt a = img.ptable.byteAt a

namespace Memory.Loaded

variable {img : Image} {m m' : Memory} (h : m.Loaded img)

theorem init (hc : img.cache = none) : img.memory.Loaded img := ⟨⟨hc, rfl⟩, rfl, fun _ _ => rfl⟩

include h

theorem of_agrees (hu : m'.Uncached) (hag : m.Agrees m') : m'.Loaded img := by
  refine ⟨hu, hag.segStart.trans h.segStart, fun a ha => ?_⟩
  rw [← hu.view_eq, hag.view a id, h.uncached.view_eq]
  exact h.text a ha

theorem addrInImem_eq (pc : Word) : addrInImem m pc = addrInImem img.memory pc := by
  rw [addrInImem, addrInImem, h.segStart]
  rfl

theorem imem {pc : Word} (hpc : img.InText pc) :
    ∃ m', ChArm.imem m pc = .ok (img.word pc, false, m') ∧ m'.Uncached ∧ m.Agrees m' := by
  have hin : addrInImem m pc = true := by rw [h.addrInImem_eq, hpc.inImem]
  have hread := imem_of_not_fault hpc.ne_zero hin hpc.aligned
  have hword : (leValue (fun k => m.ptable.byteAt (pc + BitVec.ofNat 64 k)) 4).setWidth 32 =
      img.word pc :=
    congrArg (BitVec.setWidth 32) (leValue_congr fun k hk =>
      h.text _ (textByte_of_fetch hpc.inImem hpc.aligned hk))
  rw [hword] at hread
  have hio : pc ≠ IO_CHAR_ADDR := fun hio => absurd (hio ▸ hpc.aligned) (by decide)
  exact ⟨_, hread, ⟨h.uncached.cache, h.uncached.ready⟩, (imem_keeps h.uncached hread).2 hio _⟩

/-- A data access that signals no error leaves the instructions. -/
theorem dmem {addr wval rval v : Word} {read write : Bool} (hrw : (read && write) = false)
    (hd : ChArm.dmem m addr wval read write rval = .ok (v, false, m')) : m'.Loaded img := by
  have htext : m.textByte = img.memory.textByte := by
    funext a
    rw [textByte, textByte, h.segStart]
    rfl
  have hset : m.Settled m.textByte := fun c hc => by
    rw [h.uncached.cache] at hc
    cases hc
  have hkept : ∀ {m'}, m'.Uncached → m'.segStart = m.segStart → dmemErr m addr = false →
      ChArm.dmem m addr wval read write rval = .ok (v, false, m') → m'.Loaded img := by
    intro m' hu hseg he hd
    obtain ⟨-, hk⟩ := hset.dmem hrw (fun hs a ha => inWord_of_textByte hs he ha) hd
    exact ⟨hu, hseg.trans h.segStart, fun a ha => (hk a (htext ▸ ha)).trans (h.text a ha)⟩
  rcases dmem_inv hrw hd with ⟨-, -, rfl, -⟩ | ⟨-, -, hr, he⟩ | ⟨-, -, hr, -, he⟩
  · exact h
  · exact hkept (h.uncached.memRead hr) (memRead_segStart hr) he.symm hd
  · exact hkept (h.uncached.memWrite hr) (memWrite_segStart hr) he.symm hd

end Memory.Loaded

/-! ## What fetch delivers -/

section
variable {img : Image} {s : Machine} (h : s.mem.Loaded img)
include h

/-- An address that is not that of an instruction delivers no `HLT`. -/
theorem imem_error {pc : Word} (h0 : pc ≠ 0) (hpc : ¬ img.InText pc) {insnbits : BitVec 32}
    {err : Bool} {m' : Memory} (hi : imem s.mem pc = .ok (insnbits, err, m')) : err = true := by
  rw [(imem_inv hi).1]
  by_contra he
  rw [Bool.not_eq_true, Bool.or_eq_false_iff, Bool.not_eq_false', h.addrInImem_eq,
    bne_eq_false_iff_eq] at he
  exact hpc ⟨h0, he.1, he.2⟩

/-- An instruction fetched in earnest is the one the image has there. -/
theorem fetched_instrAt {v : Wires} (hv : wires false s = .ok v) (hd : v.d.status = .aok) :
    img.InText v.d.pc ∧ v.d = img.instrAt v.d.pc := by
  rcases fetch_inv hv with ⟨-, hd', -⟩ | ⟨hh, insnbits, imemErr, hi, hd', -⟩
  · rw [hd'] at hd
    cases hd
  · have h0 : fetchPC false s ≠ 0 := fun h0 => by
      rw [fetchHalts, h0] at hh
      cases hh
    have hpc : img.InText (fetchPC false s) := by
      by_contra hno
      rw [hd', imem_error h h0 hno hi] at hd
      simp [fetchedInstr, fetchStatus] at hd
    obtain ⟨m', hi', -⟩ := h.imem hpc
    rw [hi] at hi'
    cases hi'
    rw [hd']
    exact ⟨(img.instrAt_pc _).symm ▸ hpc, (img.instrAt_pc _).symm ▸ rfl⟩

/-- Fetch delivers an `HLT` once it has, and where the program ends. -/
theorem fetchStatus_hlt_iff {v : Wires} (hv : wires false s = .ok v) :
    v.fStatus = .hlt ↔ s.F.inp.status = .hlt ∨ img.EndsAt (fetchPC false s) := by
  rcases fetch_inv hv with ⟨hh, -, hst, -⟩ | ⟨hh, insnbits, imemErr, hi, hd, hst, -⟩
  · rw [fetchHalts, Bool.or_eq_true, beq_iff_eq, beq_iff_eq] at hh
    exact ⟨fun _ => hh.symm.imp_right Or.inl, fun _ => hst⟩
  · rw [fetchHalts, Bool.or_eq_false_iff, beq_eq_false_iff_ne, beq_eq_false_iff_ne] at hh
    rw [hst, hd]
    by_cases hpc : img.InText (fetchPC false s)
    · obtain ⟨m', hi', -⟩ := h.imem hpc
      rw [hi] at hi'
      cases hi'
      exact ⟨fun hs => .inr (.inr ⟨hpc, hs⟩),
        fun hs => ((hs.resolve_left hh.2).resolve_left hh.1).2⟩
    · rw [imem_error h hh.1 hpc hi]
      refine ⟨fun hs => ?_, fun hs => ?_⟩
      · simp [fetchedInstr, fetchStatus] at hs
      · exact absurd ((hs.resolve_left hh.2).resolve_left hh.1).1 hpc

end

end ChArm
