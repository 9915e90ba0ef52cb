import Leviathan.Lib.Feeding
import Leviathan.MySql.Wire

/-!
# Packets

`assembler.lev`: a payload is cut into packets of at most `MAX_PAYLOAD` bytes, and the
assembler puts the packets of a byte stream together again, however the stream is cut
into fragments.

The loop of `feed` is a decoder in the sense of `Feeding`: its state is what the assembler
keeps besides the buffer, its bytes are those behind the cursor, and what it puts out are
the calls of the sink.
-/

namespace Leviathan.MySql

open List

namespace Framing

/-- The packets that the loop of `encode` appends, from an offset on. -/
def encodeLoop (payload : Bytes) : Nat → Nat → Int → List Bytes
  | 0, _, _ => []
  | fuel + 1, off, s =>
    let remaining := payload.length - off
    let take := if remaining > Wire.MAX_PAYLOAD then Wire.MAX_PAYLOAD else remaining
    (Wire.wU24 take ++ (Wire.wU8 s ++ subStr payload off take)) ::
      (if take = Wire.MAX_PAYLOAD then encodeLoop payload fuel (off + take) ((s + 1) % 256)
        else [])

/-- `packetCount`. -/
def packetCount (len : Nat) : Nat := len / Wire.MAX_PAYLOAD + 1

/-- The packets of one payload.  Only a full packet is followed by another one, so as many
rounds as there are packets are enough. -/
def encodePackets (payload : Bytes) (seq : Int) : List Bytes :=
  encodeLoop payload (packetCount payload.length) 0 seq

/-- `encode`. -/
def encode (payload : Bytes) (seq : Int) : Bytes := (encodePackets payload seq).flatten

end Framing

/-- What the assembler keeps from one byte to the next. -/
structure Assembly where
  state : Nat
  need : Nat
  seq : Nat
  joined : Bytes
  joining : Bool
  deriving DecidableEq

/-- A call of the sink: the sequence id of the last packet and the payload. -/
abbrev SinkCall := Nat × Bytes

/-- `PacketAssembler`. -/
structure PacketAssembler extends Assembly where
  buf : Bytes
  pos : Nat

namespace Assembly

/-- The header of a packet is there. -/
def opened (a : Assembly) (need seq : Nat) : Assembly :=
  { a with need, seq, state := Wire.ST_PAYLOAD }

/-- The payload of a packet is there. -/
def complete (a : Assembly) (payload : Bytes) : Assembly × List SinkCall :=
  if a.need = Wire.MAX_PAYLOAD then
    ({ a with state := Wire.ST_HEADER, joined := a.joined ++ payload, joining := true }, [])
  else if a.joining then
    ({ a with state := Wire.ST_HEADER, joined := [], joining := false },
      [(a.seq, a.joined ++ payload)])
  else ({ a with state := Wire.ST_HEADER }, [(a.seq, payload)])

end Assembly

namespace PacketAssembler

/-- A new assembler, after `reset`. -/
def new : PacketAssembler :=
  { state := Wire.ST_HEADER, need := 0, seq := 0, joined := [], joining := false, buf := [],
    pos := 0 }

/-- One round of the loop of `feed`; none if it makes no progress. -/
def round (a : PacketAssembler) : Except Exn (Option (PacketAssembler × List SinkCall)) := do
  let avail := a.buf.length - a.pos
  if a.state = Wire.ST_HEADER ∧ avail ≥ 4 then
    let need ← Wire.u24 a.buf a.pos
    let seq ← Wire.u8 a.buf (a.pos + 3)
    return some ({ toAssembly := a.toAssembly.opened need seq, buf := a.buf, pos := a.pos + 4 }, [])
  else if a.state = Wire.ST_PAYLOAD ∧ avail ≥ a.need then
    let payload := subStr a.buf a.pos a.need
    let done := a.toAssembly.complete payload
    return some ({ toAssembly := done.1, buf := a.buf, pos := a.pos + a.need }, done.2)
  else
    return none

/-- The loop of `feed`. -/
def loop : Nat → PacketAssembler → Except Exn (PacketAssembler × List SinkCall)
  | 0, a => .ok (a, [])
  | fuel + 1, a => do
    match ← a.round with
    | none => return (a, [])
    | some (a, calls) =>
      let rest ← loop fuel a
      return (rest.1, calls ++ rest.2)

/-- `feed`.  A round uses up bytes or goes from a header to its payload. -/
def feed (a : PacketAssembler) (chunk : Bytes) :
    Except Exn (PacketAssembler × List SinkCall) :=
  let buf :=
    if a.pos = a.buf.length then chunk
    else subStr a.buf a.pos (a.buf.length - a.pos) ++ chunk
  loop (2 * buf.length + 2) { a with buf, pos := 0 }

/-- Feeds the fragments one after the other; the calls of each. -/
def feedAll (a : PacketAssembler) :
    List Bytes → Except Exn (PacketAssembler × List (List SinkCall))
  | [] => .ok (a, [])
  | chunk :: chunks => do
    let first ← a.feed chunk
    let rest ← first.1.feedAll chunks
    return (rest.1, first.2 :: rest.2)

/-- The bytes behind the cursor. -/
def unread (a : PacketAssembler) : Bytes := a.buf.drop a.pos

end PacketAssembler

/-! ## The assembler as a decoder -/

variable {a a' : Assembly} {b rest : Bytes} {off : Nat} {calls : List SinkCall}

namespace Assembly

/-- A round of the loop on the bytes behind the cursor. -/
def step : Feeding.Stepper UInt8 Assembly SinkCall := fun a b =>
  if a.state = Wire.ST_HEADER ∧ b.length ≥ 4 then
    match Wire.u24 b 0, Wire.u8 b 3 with
    | .ok need, .ok seq => some (a.opened need seq, b.drop 4, [])
    | _, _ => none
  else if a.state = Wire.ST_PAYLOAD ∧ b.length ≥ a.need then
    let done := a.complete (b.take a.need)
    some (done.1, b.drop a.need, done.2)
  else none

theorem complete_state (a : Assembly) (payload : Bytes) :
    (a.complete payload).1.state = Wire.ST_HEADER := by
  unfold complete
  split
  · rfl
  · split
    · rfl
    · rfl

/-- A full packet is only added to what has been joined. -/
theorem complete_full (payload : Bytes) (h : a.need = Wire.MAX_PAYLOAD) :
    a.complete payload =
      ({ a with state := Wire.ST_HEADER, joined := a.joined ++ payload, joining := true }, []) := by
  unfold complete
  rw [if_pos h]

/-- Every other packet ends in a call of the sink. -/
theorem complete_last (payload : Bytes) (h : a.need < Wire.MAX_PAYLOAD)
    (hjoin : a.joining = false → a.joined = []) :
    a.complete payload =
      ({ a with state := Wire.ST_HEADER, joined := [], joining := false },
        [(a.seq, a.joined ++ payload)]) := by
  have hne : ¬ a.need = Wire.MAX_PAYLOAD := by omega
  unfold complete
  rw [if_neg hne]
  cases hjoining : a.joining with
  | true => rfl
  | false =>
    rw [hjoin hjoining]
    rfl

/-- How far the loop is from its end. -/
def left (a : Assembly) (b : Bytes) : Nat :=
  2 * b.length + (if a.state = Wire.ST_PAYLOAD then 1 else 0)

theorem exists_four (h : b.length ≥ 4) : ∃ x y z w rest, b = x :: y :: z :: w :: rest := by
  match b, h with
  | x :: y :: z :: w :: rest, _ => exact ⟨x, y, z, w, rest, rfl⟩

/-- The header of a packet, wherever it stands. -/
theorem header_of_has {x y z w : UInt8} (h : Wire.Has b off [x, y, z, w]) :
    Wire.u24 b off = .ok (x.toNat ||| y.toNat <<< 8 ||| z.toNat <<< 16) ∧
      Wire.u8 b (off + 3) = .ok w.toNat := by
  have hsplit : Wire.Has b off ([x, y, z] ++ [w]) := h
  exact ⟨Wire.u24_of_has hsplit.left, Wire.byteAt_of_has hsplit.right⟩

theorem step_header {x y z w : UInt8} (hstate : a.state = Wire.ST_HEADER)
    (hb : b = x :: y :: z :: w :: rest) :
    a.step b = some (a.opened (x.toNat ||| y.toNat <<< 8 ||| z.toNat <<< 16) w.toNat, rest,
      []) := by
  subst hb
  have hhas : Wire.Has (x :: y :: z :: w :: rest) 0 [x, y, z, w] := ⟨rest, rfl⟩
  obtain ⟨hneed, hseq⟩ := header_of_has hhas
  have hlen : (x :: y :: z :: w :: rest).length ≥ 4 := by simp
  unfold step
  rw [if_pos ⟨hstate, hlen⟩, hneed, hseq]
  rfl

theorem step_payload (hstate : a.state = Wire.ST_PAYLOAD) (hb : b.length ≥ a.need) :
    a.step b = some ((a.complete (b.take a.need)).1, b.drop a.need,
      (a.complete (b.take a.need)).2) := by
  have hne : ¬ (a.state = Wire.ST_HEADER ∧ b.length ≥ 4) := by
    rw [hstate]
    intro h
    cases h.1
  unfold step
  rw [if_neg hne, if_pos ⟨hstate, hb⟩]

theorem step_eq_none (hheader : ¬ (a.state = Wire.ST_HEADER ∧ b.length ≥ 4))
    (hpayload : ¬ (a.state = Wire.ST_PAYLOAD ∧ b.length ≥ a.need)) : a.step b = none := by
  unfold step
  rw [if_neg hheader, if_neg hpayload]

/-- The two things a step can be. -/
theorem step_cases {b' : Bytes} (h : a.step b = some (a', b', calls)) :
    (a.state = Wire.ST_HEADER ∧ ∃ x y z w, b = x :: y :: z :: w :: b') ∨
      (a.state = Wire.ST_PAYLOAD ∧ b.length ≥ a.need ∧ b' = b.drop a.need ∧
        (a', calls) = a.complete (b.take a.need)) := by
  by_cases hheader : a.state = Wire.ST_HEADER ∧ b.length ≥ 4
  · obtain ⟨x, y, z, w, rest, hb⟩ := exists_four hheader.2
    rw [step_header hheader.1 hb] at h
    cases h
    exact .inl ⟨hheader.1, x, y, z, w, hb⟩
  · by_cases hpayload : a.state = Wire.ST_PAYLOAD ∧ b.length ≥ a.need
    · rw [step_payload hpayload.1 hpayload.2] at h
      cases h
      exact .inr ⟨hpayload.1, hpayload.2, rfl, rfl⟩
    · rw [step_eq_none hheader hpayload] at h
      cases h

theorem step_patient : Feeding.Patient step := by
  apply Feeding.patient_of_extends
  intro a a' b b' calls c h
  rcases step_cases h with ⟨hstate, x, y, z, w, hb⟩ | ⟨hstate, hlen, hb, hdone⟩
  · rw [step_header hstate hb] at h
    have hbc : b ++ c = x :: y :: z :: w :: (b' ++ c) := by rw [hb]; rfl
    rw [step_header hstate hbc]
    cases h
    rfl
  · have hlen' : (b ++ c).length ≥ a.need := by
      rw [length_append]
      omega
    rw [step_payload hstate hlen', take_append_of_le_length hlen,
      drop_append_of_le_length hlen, ← hdone, hb]

theorem step_left {b' : Bytes} (h : a.step b = some (a', b', calls)) : a'.left b' < a.left b := by
  rcases step_cases h with ⟨hstate, x, y, z, w, hb⟩ | ⟨hstate, hlen, hb, hdone⟩
  · subst hb
    unfold left
    simp only [length_cons]
    split
    · split
      · omega
      · omega
    · omega
  · have hheader : a'.state = Wire.ST_HEADER := by
      have := complete_state a (b.take a.need)
      rwa [← hdone] at this
    have hne : ¬ a'.state = Wire.ST_PAYLOAD := by
      rw [hheader]
      intro h'
      cases h'
    unfold left
    rw [if_neg hne, if_pos hstate, hb, length_drop]
    omega

end Assembly

variable {fuel : Nat}

namespace PacketAssembler

open Feeding (Takes Fed)

/-- A round of the loop is a step of the decoder. -/
theorem round_spec (a : PacketAssembler) :
    (a.round = .ok none ∧ a.toAssembly.step a.unread = none) ∨
      ∃ a' calls, a.round = .ok (some (a', calls)) ∧
        a.toAssembly.step a.unread = some (a'.toAssembly, a'.unread, calls) := by
  have hlen : a.buf.length - a.pos = a.unread.length := by
    unfold unread
    rw [length_drop]
  unfold round
  simp only [hlen]
  by_cases hheader : a.state = Wire.ST_HEADER ∧ a.unread.length ≥ 4
  · obtain ⟨x, y, z, w, rest, hb⟩ := Assembly.exists_four hheader.2
    have hhas : Wire.Has a.buf a.pos [x, y, z, w] := ⟨rest, hb.symm⟩
    obtain ⟨hneed, hseq⟩ := Assembly.header_of_has hhas
    have hrest : a.buf.drop (a.pos + 4) = rest := by
      have : a.buf.drop (a.pos + 4) = a.unread.drop 4 := by
        unfold unread
        rw [drop_drop]
      rw [this, hb]
      rfl
    right
    simp only [if_pos hheader, hneed, hseq, bind, Except.bind, pure, Except.pure]
    refine ⟨_, _, rfl, ?_⟩
    rw [Assembly.step_header hheader.1 hb]
    unfold unread
    rw [hrest]
  · by_cases hpayload : a.state = Wire.ST_PAYLOAD ∧ a.unread.length ≥ a.need
    · right
      simp only [if_neg hheader, if_pos hpayload, pure, Except.pure]
      refine ⟨_, _, rfl, ?_⟩
      rw [Assembly.step_payload hpayload.1 hpayload.2]
      unfold unread subStr
      rw [drop_drop]
    · left
      simp only [if_neg hheader, if_neg hpayload, pure, Except.pure]
      exact ⟨trivial, Assembly.step_eq_none hheader hpayload⟩

theorem loop_spec {a : PacketAssembler} (hfuel : a.toAssembly.left a.unread < fuel) :
    ∃ a' calls, loop fuel a = .ok (a', calls) ∧
      Takes Assembly.step a.toAssembly a.unread a'.toAssembly a'.unread calls := by
  induction fuel generalizing a with
  | zero => omega
  | succ fuel ih =>
    rcases a.round_spec with ⟨hround, hstep⟩ | ⟨a₁, calls, hround, hstep⟩
    · refine ⟨a, [], ?_, .stop hstep⟩
      simp only [loop, hround, bind, Except.bind, pure, Except.pure]
    · have hless := Assembly.step_left hstep
      obtain ⟨a', rest, hloop, htakes⟩ := ih (a := a₁) (by omega)
      refine ⟨a', calls ++ rest, ?_, .step hstep htakes⟩
      simp only [loop, hround, hloop, bind, Except.bind, pure, Except.pure]

theorem feed_spec (a : PacketAssembler) (chunk : Bytes) :
    ∃ a' calls, a.feed chunk = .ok (a', calls) ∧
      Takes Assembly.step a.toAssembly (a.unread ++ chunk) a'.toAssembly a'.unread calls := by
  have hbuf : (if a.pos = a.buf.length then chunk
      else subStr a.buf a.pos (a.buf.length - a.pos) ++ chunk) = a.unread ++ chunk := by
    by_cases hpos : a.pos = a.buf.length
    · rw [if_pos hpos]
      unfold unread
      rw [hpos, drop_length]
      rfl
    · rw [if_neg hpos]
      unfold subStr unread
      rw [take_of_length_le (by rw [length_drop])]
  unfold feed
  simp only [hbuf]
  have hleft : ({ a with buf := a.unread ++ chunk, pos := 0 } : PacketAssembler).toAssembly.left
      (a.unread ++ chunk) < 2 * (a.unread ++ chunk).length + 2 := by
    unfold Assembly.left
    split <;> omega
  obtain ⟨a', calls, hloop, htakes⟩ :=
    loop_spec (a := { a with buf := a.unread ++ chunk, pos := 0 }) hleft
  exact ⟨a', calls, hloop, htakes⟩

theorem feedAll_spec (a : PacketAssembler) (chunks : List Bytes) :
    ∃ a' calls, a.feedAll chunks = .ok (a', calls) ∧
      Fed Assembly.step a.toAssembly a.unread chunks a'.toAssembly a'.unread calls := by
  induction chunks generalizing a with
  | nil => exact ⟨a, [], rfl, .nil⟩
  | cons chunk chunks ih =>
    obtain ⟨a₁, calls, hfeed, htakes⟩ := a.feed_spec chunk
    obtain ⟨a', rest, hrest, hfed⟩ := ih a₁
    refine ⟨a', calls :: rest, ?_, .cons htakes hfed⟩
    simp only [feedAll, hfeed, hrest, bind, Except.bind, pure, Except.pure]

end PacketAssembler

/-! ## Reading the packets of a payload -/

variable {payload : Bytes} {s : Int}

namespace Framing

open Feeding (Takes Fed)

theorem encodeLoop_full (h : Wire.MAX_PAYLOAD ≤ payload.length - off) :
    encodeLoop payload (fuel + 1) off s =
      (Wire.wU24 Wire.MAX_PAYLOAD ++ (Wire.wU8 s ++ subStr payload off Wire.MAX_PAYLOAD)) ::
        encodeLoop payload fuel (off + Wire.MAX_PAYLOAD) ((s + 1) % 256) := by
  have htake : (if payload.length - off > Wire.MAX_PAYLOAD then Wire.MAX_PAYLOAD
      else payload.length - off) = Wire.MAX_PAYLOAD := by
    split
    · rfl
    · omega
  simp only [encodeLoop, htake, if_true]

theorem encodeLoop_last (h : payload.length - off < Wire.MAX_PAYLOAD) :
    encodeLoop payload (fuel + 1) off s =
      [Wire.wU24 ((payload.length - off : Nat) : Int) ++ (Wire.wU8 s ++ payload.drop off)] := by
  have htake : (if payload.length - off > Wire.MAX_PAYLOAD then Wire.MAX_PAYLOAD
      else payload.length - off) = payload.length - off := by
    split
    · omega
    · rfl
  have hdata : subStr payload off (payload.length - off) = payload.drop off := by
    unfold subStr
    rw [take_of_length_le (by rw [length_drop])]
  have hne : ¬ payload.length - off = Wire.MAX_PAYLOAD := by omega
  simp only [encodeLoop, htake, hdata, if_neg hne]

theorem length_encodeLoop (hfuel : (payload.length - off) / Wire.MAX_PAYLOAD < fuel) :
    (encodeLoop payload fuel off s).length = packetCount (payload.length - off) := by
  induction fuel generalizing off s with
  | zero => exact absurd hfuel (Nat.not_lt_zero _)
  | succ fuel ih =>
    have hmax : Wire.MAX_PAYLOAD = 0xFFFFFF := rfl
    by_cases hfull : Wire.MAX_PAYLOAD ≤ payload.length - off
    · rw [hmax] at hfuel hfull
      rw [encodeLoop_full hfull, length_cons, ih (by rw [hmax]; omega)]
      unfold packetCount
      rw [hmax]
      omega
    · have hless : payload.length - off < Wire.MAX_PAYLOAD := by omega
      rw [encodeLoop_last hless, length_singleton]
      unfold packetCount
      rw [Nat.div_eq_of_lt hless]

/-- A packet goes through the header and its payload. -/
theorem takes_packet {data r : Bytes} (hstate : a.state = Wire.ST_HEADER)
    (hlen : data.length ≤ Wire.MAX_PAYLOAD)
    (htakes : Takes Assembly.step ((a.opened data.length (s % 256).toNat).complete data).1 rest
      a' r calls) :
    Takes Assembly.step a ((Wire.wU24 data.length ++ (Wire.wU8 s ++ data)) ++ rest) a' r
      (((a.opened data.length (s % 256).toNat).complete data).2 ++ calls) := by
  have hmax : Wire.MAX_PAYLOAD = 0xFFFFFF := rfl
  have hhas : Wire.Has ((Wire.wU24 data.length ++ (Wire.wU8 s ++ data)) ++ rest) 0
      (Wire.wU24 data.length) := ⟨(Wire.wU8 s ++ data) ++ rest, by simp⟩
  have hneed := (Wire.u24_of_has hhas).symm.trans (Wire.u24_wU24 hhas)
  have hopen := Assembly.step_header (a := a)
    (b := (Wire.wU24 data.length ++ (Wire.wU8 s ++ data)) ++ rest) hstate rfl
  have hbyte : (s % 256).toNat < 256 := by omega
  have hvalue : ((data.length : Int) % 2 ^ 24).toNat = data.length := by
    rw [hmax] at hlen
    omega
  rw [Except.ok.inj hneed, Wire.toNat_ofNat_byte hbyte, hvalue] at hopen
  have hlen' : (data ++ rest).length ≥ (a.opened data.length (s % 256).toNat).need := by
    rw [length_append]
    exact Nat.le_add_right ..
  have hclose := Assembly.step_payload (a := a.opened data.length (s % 256).toNat)
    (b := data ++ rest) rfl hlen'
  have hneed' : (a.opened data.length (s % 256).toNat).need = data.length := rfl
  rw [hneed', take_left, drop_left] at hclose
  have hpayload := Takes.step hclose htakes
  have hheader := Takes.step hopen hpayload
  exact hheader

/-- The assembler after a payload of `len` bytes whose first packet had the id `s`. -/
def rested (len : Nat) (s : Int) : Assembly :=
  { state := Wire.ST_HEADER
    need := len % Wire.MAX_PAYLOAD
    seq := ((s + (len / Wire.MAX_PAYLOAD : Nat)) % 256).toNat
    joined := []
    joining := false }

/-- The packets of a payload end in one call of the sink. -/
theorem takes_encodeLoop {r : Bytes} (hstate : a.state = Wire.ST_HEADER)
    (hjoin : a.joining = false → a.joined = []) (hoff : off ≤ payload.length)
    (hfuel : (payload.length - off) / Wire.MAX_PAYLOAD < fuel)
    (htakes : Takes Assembly.step (rested (payload.length - off) s) rest a' r calls) :
    Takes Assembly.step a ((encodeLoop payload fuel off s).flatten ++ rest) a' r
      (((rested (payload.length - off) s).seq, a.joined ++ payload.drop off) :: calls) := by
  have hmax : Wire.MAX_PAYLOAD = 0xFFFFFF := rfl
  induction fuel generalizing off s a with
  | zero => exact absurd hfuel (Nat.not_lt_zero _)
  | succ fuel ih =>
    by_cases hfull : Wire.MAX_PAYLOAD ≤ payload.length - off
    · have hlen : (subStr payload off Wire.MAX_PAYLOAD).length = Wire.MAX_PAYLOAD := by
        unfold subStr
        rw [length_take, length_drop]
        omega
      have hrested : rested (payload.length - (off + Wire.MAX_PAYLOAD)) ((s + 1) % 256) =
          rested (payload.length - off) s := by
        have hmod : (payload.length - (off + Wire.MAX_PAYLOAD)) % Wire.MAX_PAYLOAD =
            (payload.length - off) % Wire.MAX_PAYLOAD := by
          rw [hmax] at hfull ⊢
          omega
        have hseq : ((s + 1) % 256 +
            ((payload.length - (off + Wire.MAX_PAYLOAD)) / Wire.MAX_PAYLOAD : Nat)) % 256 =
            (s + ((payload.length - off) / Wire.MAX_PAYLOAD : Nat)) % 256 := by
          rw [hmax] at hfull ⊢
          omega
        unfold rested
        rw [hmod, hseq]
      have hdrop : payload.drop off = subStr payload off Wire.MAX_PAYLOAD ++
          payload.drop (off + Wire.MAX_PAYLOAD) := by
        unfold subStr
        rw [← drop_drop, take_append_drop]
      have hcomplete := Assembly.complete_full
        (a := a.opened Wire.MAX_PAYLOAD (s % 256).toNat) (subStr payload off Wire.MAX_PAYLOAD) rfl
      rw [encodeLoop_full hfull, flatten_cons, append_assoc, ← hrested, hdrop,
        ← append_assoc a.joined]
      have hoff' : off + Wire.MAX_PAYLOAD ≤ payload.length := by
        rw [hmax] at hfull ⊢
        omega
      have hfuel' : (payload.length - (off + Wire.MAX_PAYLOAD)) / Wire.MAX_PAYLOAD < fuel := by
        rw [hmax] at hfuel hfull ⊢
        omega
      have hrest := ih (a := ((a.opened Wire.MAX_PAYLOAD (s % 256).toNat).complete
        (subStr payload off Wire.MAX_PAYLOAD)).1) (s := (s + 1) % 256) (by rw [hcomplete])
        (by rw [hcomplete]; intro h; cases h) hoff' hfuel' (by rw [hrested]; exact htakes)
      have hpacket := takes_packet (s := s) hstate (le_of_eq hlen) (by rw [hlen]; exact hrest)
      rw [hlen, hcomplete] at hpacket
      exact hpacket
    · have hless : payload.length - off < Wire.MAX_PAYLOAD := by omega
      have hlen : (payload.drop off).length = payload.length - off := length_drop ..
      have hcomplete : (a.opened (payload.length - off) (s % 256).toNat).complete
          (payload.drop off) =
          (rested (payload.length - off) s,
            [((rested (payload.length - off) s).seq, a.joined ++ payload.drop off)]) := by
        have hrested : rested (payload.length - off) s =
            { state := Wire.ST_HEADER, need := payload.length - off, seq := (s % 256).toNat,
              joined := [], joining := false } := by
          unfold rested
          rw [Nat.mod_eq_of_lt hless, Nat.div_eq_of_lt hless]
          simp
        have hlast := Assembly.complete_last
          (a := a.opened (payload.length - off) (s % 256).toNat) (payload.drop off) hless hjoin
        rw [hrested, hlast]
        rfl
      have hafter : Takes Assembly.step
          ((a.opened (payload.drop off).length (s % 256).toNat).complete (payload.drop off)).1 rest
          a' r calls := by
        rw [hlen, hcomplete]
        exact htakes
      have hpacket := takes_packet hstate (by rw [hlen]; omega) hafter
      rw [hlen, hcomplete] at hpacket
      rw [encodeLoop_last hless, flatten_singleton]
      exact hpacket

/-- What the sink is to be called with for a payload sent from the id `seq` on. -/
def callOf (send : Bytes × Int) : SinkCall :=
  (((send.2 + (packetCount send.1.length - 1 : Nat)) % 256).toNat, send.1)

/-- The packets of a list of payloads end in one call for each. -/
theorem takes_encode (sends : List (Bytes × Int)) (hstate : a.state = Wire.ST_HEADER)
    (hjoin : a.joining = false) (hjoined : a.joined = []) :
    ∃ a' : Assembly, a'.state = Wire.ST_HEADER ∧ a'.joining = false ∧ a'.joined = [] ∧
      Takes Assembly.step a (sends.flatMap fun send => encode send.1 send.2) a' []
        (sends.map callOf) := by
  induction sends generalizing a with
  | nil =>
    refine ⟨a, hstate, hjoin, hjoined, .stop ?_⟩
    apply Assembly.step_eq_none
    · intro h
      exact absurd h.2 (by decide)
    · rw [hstate]
      intro h
      cases h.1
  | cons send sends ih =>
    obtain ⟨a', hstate', hjoin', hjoined', htakes⟩ :=
      ih (a := rested send.1.length send.2) rfl rfl rfl
    refine ⟨a', hstate', hjoin', hjoined', ?_⟩
    have hfuel : (send.1.length - 0) / Wire.MAX_PAYLOAD < packetCount send.1.length :=
      Nat.lt_succ_self _
    have hall := takes_encodeLoop (s := send.2) hstate (fun _ => hjoined) (Nat.zero_le _) hfuel
      htakes
    rw [hjoined] at hall
    exact hall

end Framing

/-- Packets and length-encoded values are read back. -/
theorem wire_codec :
    (∀ (sends : List (Bytes × Int)) (chunks : List Bytes),
      chunks.flatten = sends.flatMap (fun send => Framing.encode send.1 send.2) →
      ∃ a calls, PacketAssembler.new.feedAll chunks = .ok (a, calls) ∧
        calls.flatten = sends.map Framing.callOf ∧
        a.unread = [] ∧ a.state = Wire.ST_HEADER ∧ a.joining = false ∧ a.joined = []) ∧
    (∀ (payload : Bytes) (seq : Int),
      (Framing.encodePackets payload seq).length = Framing.packetCount payload.length) ∧
    (∀ (v : Nat) (pre post : Bytes), v < 2 ^ 63 →
      Wire.readLenenc (pre ++ (Wire.writeLenenc v ++ post)) pre.length =
          .ok ⟨v, (Wire.writeLenenc v).length⟩ ∧
        Wire.u64 (pre ++ (Wire.wU64 v ++ post)) pre.length = .ok v ∧ (Wire.wU64 v).length = 8) ∧
    (∀ s pre post : Bytes, s.length < 2 ^ 63 →
      Wire.readLenStr (pre ++ (Wire.writeLenStr s ++ post)) pre.length =
        .ok ⟨s, (Wire.writeLenStr s).length⟩) := by
  refine ⟨?_, ?_, ?_, ?_⟩
  · intro sends chunks hchunks
    obtain ⟨a, calls, hfeed, hfed⟩ := PacketAssembler.new.feedAll_spec chunks
    obtain ⟨a', hstate, hjoin, hjoined, htakes⟩ :=
      Framing.takes_encode sends (a := PacketAssembler.new.toAssembly) rfl rfl rfl
    have hstopped : Assembly.step PacketAssembler.new.toAssembly [] = none := rfl
    have hall := hfed.takes Assembly.step_patient hstopped
    rw [← hchunks] at htakes
    obtain ⟨hstate', hunread, hcalls⟩ := hall.unique htakes
    refine ⟨a, calls, hfeed, hcalls, hunread, ?_, ?_, ?_⟩
    · rw [hstate', hstate]
    · rw [hstate', hjoin]
    · rw [hstate', hjoined]
  · intro payload seq
    exact Framing.length_encodeLoop (Nat.lt_succ_self _)
  · intro v pre post hv
    exact ⟨Wire.readLenenc_writeLenenc hv (Wire.has_append ..),
      Wire.u64_wU64 hv (Wire.has_append ..), rfl⟩
  · intro s pre post hs
    exact Wire.readLenStr_writeLenStr hs (Wire.has_append ..)

/-- Two short payloads, cut inside the first header and inside the second payload. -/
theorem wire_codec_cut :
    (∃ a calls, PacketAssembler.new.feedAll
        [[2, 0], [0, 7, 1, 2, 1, 0, 0], [], [8, 9]] = .ok (a, calls) ∧
      calls.flatten = [(7, [1, 2]), (8, [9])] ∧ a.unread = []) ∧
    Wire.readLenenc (Wire.writeLenenc 300) 0 = .ok ⟨300, 3⟩ ∧
    Wire.readLenStr (Wire.writeLenStr [65]) 0 = .ok ⟨[65], 2⟩ := by
  obtain ⟨hfeed, -, hlenenc, hlenstr⟩ := wire_codec
  obtain ⟨a, calls, hall, hcalls, hunread, -⟩ :=
    hfeed [([1, 2], 7), ([9], 8)] [[2, 0], [0, 7, 1, 2, 1, 0, 0], [], [8, 9]] (by decide)
  exact ⟨⟨a, calls, hall, hcalls, hunread⟩, (hlenenc 300 [] [] (by decide)).1,
    hlenstr [65] [] [] (by decide)⟩

namespace PacketAssembler

open Feeding (Takes)

/-- **The cuts do not matter**, whatever the bytes: the fragments make the calls that all of them at
once make, and leave the assembler as it is after them. -/
theorem feedAll_flatten (chunks : List Bytes) : ∃ a a' calls calls',
    new.feedAll chunks = .ok (a, calls) ∧ new.feed chunks.flatten = .ok (a', calls') ∧
      a.toAssembly = a'.toAssembly ∧ a.unread = a'.unread ∧ calls.flatten = calls' := by
  obtain ⟨a, calls, hfeed, hfed⟩ := new.feedAll_spec chunks
  obtain ⟨a', calls', hfeed', htakes⟩ := new.feed_spec chunks.flatten
  exact ⟨a, a', calls, calls', hfeed, hfeed',
    (hfed.takes Assembly.step_patient rfl).unique htakes⟩

/-- What comes later takes no call back. -/
theorem calls_prefix {a a' a'' : Assembly} {b c r r' : Bytes} {o o' : List SinkCall}
    (h : Takes Assembly.step a b a' r o) (h' : Takes Assembly.step a (b ++ c) a'' r' o') :
    o <+: o' := by
  obtain ⟨_, rest, -, htakes⟩ := feed_spec { toAssembly := a', buf := r, pos := 0 } c
  exact ⟨rest, ((h.append Assembly.step_patient htakes).unique h').2.2⟩

/-- **A payload is handed on once it has arrived**: while the packets of some payloads come in, the
sink gets these in order, and all whose packets are there. -/
theorem feedAll_arrived {sends : List (Bytes × Int)} {chunks : List Bytes}
    (h : chunks.flatten <+: sends.flatMap fun send => Framing.encode send.1 send.2) :
    ∃ a calls, new.feedAll chunks = .ok (a, calls) ∧ calls.flatten <+: sends.map Framing.callOf ∧
      ∀ k, ((sends.take k).flatMap fun send => Framing.encode send.1 send.2) <+: chunks.flatten →
        (sends.take k).map Framing.callOf <+: calls.flatten := by
  obtain ⟨a, calls, hfeed, hfed⟩ := new.feedAll_spec chunks
  have harrived := hfed.takes Assembly.step_patient rfl
  have hall := fun sends => Framing.takes_encode sends (a := new.toAssembly) rfl rfl rfl
  obtain ⟨more, hmore⟩ := h
  obtain ⟨_, -, -, -, hwire⟩ := hall sends
  refine ⟨a, calls, hfeed, calls_prefix (c := more) harrived (hmore ▸ hwire), fun k hk => ?_⟩
  obtain ⟨c, hc⟩ := hk
  obtain ⟨_, -, -, -, hwire⟩ := hall (sends.take k)
  exact calls_prefix hwire (hc ▸ harrived)

/-- The first payload and a byte of the second. -/
theorem feedAll_arrived_cut : ∃ a calls, new.feedAll [[2, 0], [0, 7, 1, 2, 1]] = .ok (a, calls) ∧
    calls.flatten <+: [(7, [1, 2]), (8, [9])] ∧ [(7, [1, 2])] <+: calls.flatten := by
  obtain ⟨a, calls, hfeed, hcalls, hall⟩ :=
    @feedAll_arrived [([1, 2], 7), ([9], 8)] [[2, 0], [0, 7, 1, 2, 1]] ⟨[0, 0, 8, 9], by decide⟩
  exact ⟨a, calls, hfeed, hcalls, hall 1 ⟨[1], by decide⟩⟩

end PacketAssembler

end Leviathan.MySql
