import RiscvEmu.Device.Uart
import RiscvEmu.Lib.Matcher

/-!
# The stream of the serial port

The bytes that the guest writes form a stream, in which the port looks for two escape sequences.
Both begin with `ESC` and have it nowhere else, so its two matchers find exactly their occurrences.
The receive queue hands the guest what the host pushed and the replies, in the order in which they
came.
-/

namespace RiscvEmu

namespace Uart16550

open Matcher

/-- The query `ESC [ 6 n`. -/
def dsrQuery : List U8 := [0x1B, 0x5B, 0x36, 0x6E]

/-- A byte from the host, or an access of the guest. -/
inductive Op where
  | pushRx (byte : U8)
  | load (addr : U64)
  | store (addr val : U64)

def after (u : Uart16550) : Op → Uart16550
  | .pushRx byte => u.pushRx byte
  | .load addr => (u.load addr).2
  | .store addr val => u.store addr val

def run (u : Uart16550) (ops : List Op) : Uart16550 := ops.foldl after u

/-- The port before the first operation. -/
def start (ready : Bool) : Uart16550 := { new with stdinReady := ready }

/-- The bytes that an operation transmits. -/
def written : Op → List U8
  | .store addr val => if addr &&& 0xFF#64 = 0 then [val.setWidth 8] else []
  | _ => []

def stream (ops : List Op) : List U8 := ops.flatMap written

/-- The bytes that an operation after the given stream puts into the receive queue: one of the host,
or a reply when it completes a query. -/
def arrival (xs : List U8) : Op → List U8
  | .pushRx byte => [byte]
  | .load _ => []
  | .store addr val =>
      if addr &&& 0xFF#64 = 0 ∧ dsrQuery <:+ xs ++ [val.setWidth 8] then dsrReply else []

def arrivals : List U8 → List Op → List U8
  | _, [] => []
  | xs, op :: ops => arrival xs op ++ arrivals (xs ++ written op) ops

/-- The byte that an operation reads from the receive queue. -/
def readByte (u : Uart16550) : Op → List U8
  | .load addr =>
      if addr &&& 0xFF#64 = 0 ∧ u.rxBuf ≠ [] then [(u.load addr).1.setWidth 8] else []
  | _ => []

def readBytes : Uart16550 → List Op → List U8
  | _, [] => []
  | u, op :: ops => u.readByte op ++ readBytes (u.after op) ops

/-- The law of the escape sequences, for a sequence of operations. -/
structure EscapeLaw (ready : Bool) (ops : List Op) : Prop where
  /-- What was read and what is queued is what arrived, in its order. -/
  queue : readBytes (start ready) ops ++ (run (start ready) ops).rxBuf = arrivals [] ops
  /-- A read takes the first byte of the queue, and of an empty queue it returns zero. -/
  read : ∀ addr, addr &&& 0xFF#64 = 0 → let u := run (start ready) ops
    (u.load addr).1 = (u.rxBuf.headD 0).setWidth 64 ∧ (u.load addr).2.rxBuf = u.rxBuf.tail
  stdinReady : (run (start ready) ops).stdinReady = true ↔
    ready = true ∨ dsrQuery <:+: stream ops ∨ bpmTarget <:+: stream ops
  /-- The counter is that of the bytes that are neither part of a query nor held back. -/
  sent : ∃ held n, Partial dsrQuery (stream ops) held ∧
    n + 4 * occurrences dsrQuery (stream ops) + held.length = (stream ops).length ∧
      (run (start ready) ops).txBytes = BitVec.ofNat 64 n

/-! ## The two sequences -/

theorem dsrQuery_marked : Marked dsrQuery 0x1B := marked_cons (by decide) (by decide)

theorem bpmTarget_marked : Marked bpmTarget 0x1B := marked_cons (by decide) (by decide)

/-- What the query matcher holds back. -/
theorem heldPrefix_eq {s : U8} (h : s.toNat < 4) : heldPrefix s = dsrQuery.take s.toNat := by
  have hs : s = 0#8 ∨ s = 1#8 ∨ s = 2#8 ∨ s = 3#8 := by bv_omega
  rcases hs with rfl | rfl | rfl | rfl <;> rfl

/-- The state of the port after a stream. -/
structure Watching (ready : Bool) (xs out : List U8) (found : Nat) (u : Uart16550) : Prop where
  dsr : Follows dsrQuery xs u.dsrState.toNat out found
  bpm : Tracks bpmTarget xs u.bpmState.toNat
  printed : u.stdout = out.flatMap utf8
  sent : u.txBytes = BitVec.ofNat 64 out.length
  stdinReady : u.stdinReady = true ↔ ready = true ∨ dsrQuery <:+: xs ∨ bpmTarget <:+: xs

/-! ## One byte -/

section Bytes

variable {ready : Bool} {xs out : List U8} {found : Nat} {u : Uart16550} {byte : U8}

theorem foldl_print (held : List U8) (u : Uart16550) :
    held.foldl print u = { u with stdout := u.stdout ++ held.flatMap utf8 } := by
  induction held generalizing u with
  | nil => simp
  | cons b held ih => rw [List.foldl_cons, ih, print]; simp

/-- Flushing prints what is held back. -/
theorem flushPrefix_eq (h : u.dsrState.toNat < 4) : u.flushPrefix =
    { u with
      stdout := u.stdout ++ (dsrQuery.take u.dsrState.toNat).flatMap utf8
      txBytes := u.txBytes + BitVec.ofNat 64 (dsrQuery.take u.dsrState.toNat).length
      dsrState := 0 } := by
  have hheld := heldPrefix_eq h
  rw [flushPrefix]
  split
  · rename_i hnil
    have hlen : (dsrQuery.take u.dsrState.toNat).length = 0 := by rw [← hheld, hnil]; rfl
    rw [List.length_take_of_le (Nat.le_of_lt h)] at hlen
    have hzero : u.dsrState = 0 := BitVec.eq_of_toNat_eq hlen
    rw [← hheld, hnil, ← hzero]
    simp
  · rw [foldl_print, hheld]

/-- The second matcher finds its sequence, and changes nothing else. -/
theorem bpmStep_tracks (h : Tracks bpmTarget xs u.bpmState.toNat) (byte : U8) :
    ∃ state ready, u.bpmStep byte = { u with bpmState := state, stdinReady := ready } ∧
      Tracks bpmTarget (xs ++ [byte]) state.toNat ∧
      (ready = true ↔ u.stdinReady = true ∨ bpmTarget <:+ xs ++ [byte]) := by
  have hlt : u.bpmState.toNat < 8 := h.lt
  have hnext : (u.bpmState + 1).toNat = u.bpmState.toNat + 1 := by bv_omega
  have hcomplete := h.complete_iff (b := byte) bpmTarget_marked
  rw [bpmStep]
  by_cases hsymbol : bpmTarget[u.bpmState.toNat]? = some byte
  · rw [if_pos hsymbol]
    dsimp only
    by_cases hlast : u.bpmState.toNat + 1 = bpmTarget.length
    · have hmark : byte ≠ 0x1B := by
        rintro rfl
        rw [bpmTarget_marked.alone _ hsymbol] at hlast
        cases hlast
      rw [if_pos (hnext.trans hlast)]
      refine ⟨0, true, rfl, h.reset bpmTarget_marked hmark fun hmore => ?_, ?_⟩
      · exact absurd hlast (Nat.ne_of_lt hmore)
      · exact iff_of_true rfl (Or.inr (hcomplete.mpr ⟨hlast, hsymbol⟩))
    · have hne : ¬ (u.bpmState + 1).toNat = bpmTarget.length := fun heq => hlast (hnext ▸ heq)
      rw [if_neg hne]
      refine ⟨u.bpmState + 1, u.stdinReady, rfl, ?_, ?_⟩
      · rw [hnext]
        exact h.extend bpmTarget_marked hsymbol (Nat.lt_of_le_of_ne hlt hlast)
      · rw [hcomplete, or_iff_left fun hends => hlast hends.1]
  · rw [if_neg hsymbol]
    have hnot : ¬ bpmTarget <:+ xs ++ [byte] := fun hends => hsymbol (hcomplete.mp hends).2
    refine ⟨_, u.stdinReady, rfl, ?_, by rw [or_iff_left hnot]⟩
    by_cases hmark : byte = 0x1B
    · subst hmark
      exact h.restart bpmTarget_marked
    · rw [if_neg hmark]
      exact h.reset bpmTarget_marked hmark fun _ => hsymbol

/-- The first matcher answers its query and lets the other bytes through, after what it held. -/
theorem dsrStep_follows (h : Follows dsrQuery xs u.dsrState.toNat out found)
    (hprinted : u.stdout = out.flatMap utf8) (hsent : u.txBytes = BitVec.ofNat 64 out.length)
    (byte : U8) : ∃ out' found', Follows dsrQuery (xs ++ [byte]) (u.dsrStep byte).dsrState.toNat
        out' found' ∧
      (u.dsrStep byte).stdout = out'.flatMap utf8 ∧
      (u.dsrStep byte).txBytes = BitVec.ofNat 64 out'.length ∧
      (u.dsrStep byte).bpmState = u.bpmState ∧
      ((u.dsrStep byte).stdinReady = true ↔
        u.stdinReady = true ∨ dsrQuery <:+ xs ++ [byte]) ∧
      (u.dsrStep byte).rxBuf = u.rxBuf ++ if dsrQuery <:+ xs ++ [byte] then dsrReply else [] := by
  have hlt : u.dsrState.toNat < 4 := h.lt
  have hcomplete := h.complete_iff (b := byte) dsrQuery_marked
  have hflush := flushPrefix_eq hlt
  rw [dsrStep]
  by_cases hmark : byte = 0x1B
  · subst hmark
    have hnot : ¬ dsrQuery <:+ xs ++ [0x1B] := by
      intro hends
      obtain ⟨hlast, hsymbol⟩ := hcomplete.mp hends
      have := dsrQuery_marked.alone _ hsymbol
      rw [this] at hlast
      cases hlast
    rw [if_pos rfl, hflush, if_neg hnot, List.append_nil]
    refine ⟨_, _, h.restart dsrQuery_marked, ?_, ?_, rfl, (or_iff_left hnot).symm, rfl⟩
    · rw [List.flatMap_append, ← hprinted]
    · rw [List.length_append, BitVec.ofNat_add, ← hsent]
  rw [if_neg hmark]
  by_cases hawaited : dsrQuery[u.dsrState.toNat]? = some byte
  · have hstates : u.dsrState = 0#8 ∨ u.dsrState = 1#8 ∨ u.dsrState = 2#8 ∨ u.dsrState = 3#8 := by
      bv_omega
    rcases hstates with hs | hs | hs | hs
    · rw [hs] at hawaited
      exact absurd (Option.some.inj hawaited).symm hmark
    · rw [hs] at hawaited
      obtain rfl : 0x5B#8 = byte := Option.some.inj hawaited
      have hnot : ¬ dsrQuery <:+ xs ++ [0x5B#8] := by
        rw [hcomplete, hs]
        exact fun hends => absurd hends.1 (by decide)
      rw [if_pos ⟨hs, rfl⟩, if_neg hnot, List.append_nil]
      rw [hs] at h
      exact ⟨out, found, h.extend dsrQuery_marked rfl (by decide), hprinted, hsent, rfl,
        (or_iff_left hnot).symm, rfl⟩
    · rw [hs] at hawaited
      obtain rfl : 0x36#8 = byte := Option.some.inj hawaited
      have hnot : ¬ dsrQuery <:+ xs ++ [0x36#8] := by
        rw [hcomplete, hs]
        exact fun hends => absurd hends.1 (by decide)
      rw [if_neg (fun hc => absurd hc.2 (by decide)), if_pos ⟨hs, rfl⟩, if_neg hnot,
        List.append_nil]
      rw [hs] at h
      exact ⟨out, found, h.extend dsrQuery_marked rfl (by decide), hprinted, hsent, rfl,
        (or_iff_left hnot).symm, rfl⟩
    · rw [hs] at hawaited
      obtain rfl : 0x6E#8 = byte := Option.some.inj hawaited
      have hends : dsrQuery <:+ xs ++ [0x6E#8] := by
        rw [hcomplete, hs]
        exact ⟨rfl, rfl⟩
      rw [if_neg (fun hc => absurd hc.2 (by decide)), if_neg (fun hc => absurd hc.2 (by decide)),
        if_pos ⟨hs, rfl⟩, if_pos hends]
      rw [hs] at h
      exact ⟨out, found + 1, h.complete dsrQuery_marked rfl rfl, hprinted, hsent, rfl,
        iff_of_true rfl (Or.inr hends), rfl⟩
  · have hnot : ¬ dsrQuery <:+ xs ++ [byte] := fun hends => hawaited (hcomplete.mp hends).2
    have hstate (k : U8) (b : U8) (hk : dsrQuery[k.toNat]? = some b) :
        ¬ (u.dsrState = k ∧ byte = b) := by
      rintro ⟨hs, rfl⟩
      exact hawaited (hs ▸ hk)
    rw [if_neg (hstate 1 0x5B rfl), if_neg (hstate 2 0x36 rfl), if_neg (hstate 3 0x6E rfl), hflush,
      if_neg hnot, List.append_nil]
    refine ⟨_, _, h.pass dsrQuery_marked hmark hawaited, ?_, ?_, rfl, (or_iff_left hnot).symm, rfl⟩
    · rw [List.flatMap_append, List.flatMap_append, ← hprinted, List.flatMap_singleton]
      rfl
    · rw [List.length_append, List.length_append, BitVec.ofNat_add, BitVec.ofNat_add, ← hsent]
      rfl

/-- A transmitted byte. -/
theorem Watching.store (h : Watching ready xs out found u) (byte : U8) : ∃ out' found',
    Watching ready (xs ++ [byte]) out' found' ((u.bpmStep byte).dsrStep byte) ∧
      ((u.bpmStep byte).dsrStep byte).rxBuf =
        u.rxBuf ++ if dsrQuery <:+ xs ++ [byte] then dsrReply else [] := by
  obtain ⟨state, ready', heq, htracks, hready⟩ := bpmStep_tracks h.bpm byte
  rw [heq]
  obtain ⟨out', found', hfollows, hprinted, hsent, hbpm, hready', hrx⟩ :=
    dsrStep_follows (u := { u with bpmState := state, stdinReady := ready' }) h.dsr h.printed h.sent
      byte
  refine ⟨out', found', ⟨hfollows, ?_, hprinted, hsent, ?_⟩, hrx⟩
  · rw [hbpm]
    exact htracks
  · rw [hready', hready, h.stdinReady, List.infix_concat_iff, List.infix_concat_iff]
    tauto

end Bytes

/-! ## Runs -/

section Runs

variable {ready : Bool} {xs out : List U8} {found : Nat} {u : Uart16550}

/-- Two states of the port that differ in the receiver only. -/
def SameTx (u u' : Uart16550) : Prop :=
  u' = { u with
    ier := u'.ier, rxBuf := u'.rxBuf, rxBytes := u'.rxBytes, rxDrained := u'.rxDrained }

theorem Watching.congr {u' : Uart16550} (h : Watching ready xs out found u) (heq : SameTx u u') :
    Watching ready xs out found u' := by
  rw [heq]
  exact ⟨h.dsr, h.bpm, h.printed, h.sent, h.stdinReady⟩

theorem load_data (u : Uart16550) {addr : U64} (h : addr &&& 0xFF#64 = 0) :
    u.load addr = u.popRx := by
  rw [load, h]
  rfl

theorem load_other (u : Uart16550) {addr : U64} (h : addr &&& 0xFF#64 ≠ 0) :
    (u.load addr).2 = u := by
  rw [load]
  split
  · rename_i hdata
    exact absurd hdata h
  · rfl
  · split
    · rfl
    · split <;> rfl
  · rfl
  · rfl
  · rfl

/-- A load takes at most the first byte of the queue. -/
theorem load_queue (u : Uart16550) (addr : U64) : SameTx u (u.load addr).2 ∧
    u.readByte (.load addr) ++ (u.load addr).2.rxBuf = u.rxBuf := by
  rw [readByte]
  by_cases hdata : addr &&& 0xFF#64 = 0
  · rw [load_data u hdata]
    refine ⟨rfl, ?_⟩
    cases hbuf : u.rxBuf with
    | nil => simp [popRx, hbuf]
    | cons b rest => simp [popRx, hbuf, hdata]
  · rw [load_other u hdata, if_neg fun h => hdata h.1]
    exact ⟨rfl, rfl⟩

theorem Watching.after (h : Watching ready xs out found u) (op : Op) : ∃ out' found',
    Watching ready (xs ++ written op) out' found' (u.after op) ∧
      u.readByte op ++ (u.after op).rxBuf = u.rxBuf ++ arrival xs op := by
  match op with
  | .pushRx byte =>
      rw [show written (.pushRx byte) = [] from rfl, List.append_nil]
      exact ⟨out, found, h.congr rfl, rfl⟩
  | .load addr =>
      obtain ⟨hsame, hqueue⟩ := load_queue u addr
      rw [show written (.load addr) = [] from rfl, List.append_nil]
      refine ⟨out, found, h.congr hsame, ?_⟩
      rw [Uart16550.after, hqueue, arrival, List.append_nil]
  | .store addr val =>
      have hread : u.readByte (.store addr val) = [] := rfl
      rw [Uart16550.after, Uart16550.store, written, arrival, hread, List.nil_append]
      by_cases hdata : addr &&& 0xFF#64 = 0
      · obtain ⟨out', found', hwatching, hrx⟩ := h.store (val.setWidth 8)
        rw [if_neg (not_not.mpr hdata), if_pos hdata]
        refine ⟨out', found', hwatching, ?_⟩
        simp only [hrx, hdata, true_and]
      · have hnone : ¬ (addr &&& 0xFF#64 = 0 ∧ dsrQuery <:+ xs ++ [val.setWidth 8]) :=
          fun hc => hdata hc.1
        rw [if_pos hdata, if_neg hdata, if_neg hnone, List.append_nil, List.append_nil]
        refine ⟨out, found, h.congr ?_, ?_⟩
        · split <;> rfl
        · split <;> rfl

/-- The run lemma: the port goes on watching, and its queue hands out what arrives. -/
theorem Watching.run (h : Watching ready xs out found u) (ops : List Op) : ∃ out' found',
    Watching ready (xs ++ stream ops) out' found' (u.run ops) ∧
      u.readBytes ops ++ (u.run ops).rxBuf = u.rxBuf ++ arrivals xs ops := by
  induction ops generalizing u xs out found with
  | nil =>
      refine ⟨out, found, ?_, by rw [readBytes, arrivals, List.append_nil]; rfl⟩
      rw [stream, List.flatMap_nil, List.append_nil]
      exact h
  | cons op ops ih =>
      obtain ⟨out₁, found₁, hop, hqueue⟩ := h.after op
      obtain ⟨out', found', hrest, hqueue'⟩ := ih hop
      refine ⟨out', found', ?_, ?_⟩
      · rw [stream, List.flatMap_cons, ← List.append_assoc]
        exact hrest
      · calc u.readBytes (op :: ops) ++ (u.run (op :: ops)).rxBuf
            = u.readByte op ++ ((u.after op).readBytes ops ++ ((u.after op).run ops).rxBuf) :=
              List.append_assoc ..
          _ = u.readByte op ++ (u.after op).rxBuf ++ arrivals (xs ++ written op) ops := by
              rw [hqueue', List.append_assoc]
          _ = u.rxBuf ++ arrivals xs (op :: ops) := by
              rw [hqueue, arrivals, List.append_assoc]

theorem watching_start (ready : Bool) : Watching ready [] [] 0 (start ready) := by
  refine ⟨.nil dsrQuery_marked, .nil bpmTarget_marked, rfl, rfl, ?_⟩
  have hne : ∀ p : List U8, p ≠ [] → ¬ p <:+: [] := fun p hp h => hp (List.infix_nil.mp h)
  rw [or_iff_left (not_or.mpr ⟨hne _ (by decide), hne _ (by decide)⟩)]
  rfl

/-- Every sequence of operations obeys the law of the escape sequences. -/
theorem escapeLaw (ready : Bool) (ops : List Op) : EscapeLaw ready ops := by
  obtain ⟨out, found, hwatching, hqueue⟩ := (watching_start ready).run ops
  rw [List.nil_append] at hwatching
  refine ⟨hqueue, fun addr hdata => ?_, hwatching.stdinReady, _, out.length,
    hwatching.dsr.partial_take, ?_, hwatching.sent⟩
  · intro u
    rw [load_data u hdata]
    exact ⟨rfl, rfl⟩
  · have hlength := hwatching.dsr.length
    have hlt := hwatching.dsr.lt
    rw [List.length_take_of_le (Nat.le_of_lt hlt), ← hwatching.dsr.counted, ← hlength]
    have hfour : dsrQuery.length = 4 := rfl
    rw [hfour]
    omega

end Runs

end Uart16550

end RiscvEmu
