import OsispLabs.Lab8.Command
import OsispLabs.Lib.CString
import OsispLabs.Lib.Execution
import OsispLabs.Lib.Framing

/-!
# Messages and the byte stream

One direction of a connection: one side sends messages, the other reads bytes. Each `read` is taken
for one message, whatever it returns, and the message is the C string that is then in the buffer.
So the messages are decoded exactly as long as every `read` returns one whole message.
-/
namespace OsispLabs.Lab8
open Lib

/-- The functions of both programs that read from a connection. -/
inductive Reader where
  | waitMessage
  | getResponseFromServer
  | changeDirectory
  | getListDirectory
  deriving DecidableEq

/-- The size of the buffer, which is also the count of the `read`. -/
def Reader.size : Reader → ℕ
  | .waitMessage | .getResponseFromServer | .changeDirectory => 100
  | .getListDirectory => 1024

/-- The bytes of `done`. -/
def doneBytes : List UInt8 := [100, 111, 110, 101]

/-- What a `send` sends: a buffer of one of the two sizes that holds a C string. -/
structure Packet where
  bytes : List UInt8
  size : bytes.length = 100 ∨ bytes.length = 1024
  terminated : 0 ∈ bytes

def Packet.text (p : Packet) : List UInt8 := untilNul 0 p.bytes

/-- The messages sent, the bytes not read yet, the function that is at its `read` with its buffer,
and the messages decoded. -/
structure Channel where
  sent : List Packet
  stream : List UInt8
  reader : Option (Reader × List UInt8)
  decoded : List (List UInt8)

/-- A `send`, the call of a function whose buffer holds these bytes, or a `read` that returns this
number of bytes. -/
inductive Transfer where
  | send (p : Packet)
  | call (f : Reader) (buffer : List UInt8)
  | read (n : ℕ)

/-- Only the loop of `getListDirectory` goes on to another `read`, until `done`. -/
def Reader.after (f : Reader) (buffer : List UInt8) : Option (Reader × List UInt8) :=
  if f = .getListDirectory ∧ ¬ doneBytes <+: buffer then some (f, buffer) else none

namespace Channel

def empty : Channel := ⟨[], [], none, []⟩

/-- The `read` of `n` bytes into the buffer. -/
def receive (c : Channel) (f : Reader) (buffer : List UInt8) (n : ℕ) : Channel :=
  let filled := c.stream.take n ++ buffer.drop n
  { c with
    stream := c.stream.drop n
    reader := f.after filled
    decoded := c.decoded ++ [untilNul 0 filled] }

def next (c : Channel) : Transfer → Option Channel
  | .send p => some { c with sent := c.sent ++ [p], stream := c.stream ++ p.bytes }
  | .call f buffer =>
    if c.reader = none ∧ buffer.length = f.size then some { c with reader := some (f, buffer) }
    else none
  | .read n => c.reader.bind fun (f, buffer) =>
    if 0 < n ∧ n ≤ f.size ∧ n ≤ c.stream.length then some (c.receive f buffer n) else none

/-- The messages not decoded yet. -/
def rest (c : Channel) : List Packet := c.sent.drop c.decoded.length

/-- The messages decoded are the first ones sent, and the bytes not read yet are those of the
others. -/
structure Decodes (c : Channel) : Prop where
  decoded : c.decoded = (c.sent.take c.decoded.length).map Packet.text
  framed : Framed c.stream (c.rest.map Packet.bytes)

/-- A `read` returns exactly the bytes of the next message. -/
def Whole (c : Channel) : Transfer → Prop
  | .read n => ∀ p ∈ c.rest.head?, n = p.bytes.length
  | .send _ | .call .. => True

instance (c : Channel) : (a : Transfer) → Decidable (c.Whole a)
  | .read n => inferInstanceAs (Decidable (∀ p ∈ c.rest.head?, n = p.bytes.length))
  | .send _ | .call .. => isTrue trivial

theorem empty_decodes : empty.Decodes := ⟨rfl, framed_nil⟩

variable {c d : Channel} {a : Transfer} {n : ℕ}

theorem Decodes.length_le (hs : c.Decodes) : c.decoded.length ≤ c.sent.length := by
  have hlen := congrArg List.length hs.decoded
  rw [List.length_map, List.length_take] at hlen
  omega

theorem Decodes.send (hs : c.Decodes) (p : Packet) :
    Decodes { c with sent := c.sent ++ [p], stream := c.stream ++ p.bytes } where
  decoded := by
    simp only [List.take_append_of_le_length hs.length_le]
    exact hs.decoded
  framed := by
    simp only [rest, List.drop_append_of_le_length hs.length_le, List.map_append]
    exact hs.framed.write p.bytes

/-- There is a next message when there are bytes to read. -/
theorem Decodes.exists_next (hs : c.Decodes) (h : c.stream ≠ []) :
    ∃ p ps, c.rest = p :: ps ∧ c.sent[c.decoded.length]? = some p := by
  cases hrest : c.rest with
  | nil =>
    have hframed := hs.framed
    rw [hrest] at hframed
    exact absurd hframed h
  | cons p ps =>
    refine ⟨p, ps, rfl, ?_⟩
    rw [← List.head?_drop, ← rest, hrest]
    rfl

theorem rest_receive {p : Packet} {ps : List Packet} (hrest : c.rest = p :: ps) (f : Reader)
    (buffer : List UInt8) (n : ℕ) : (c.receive f buffer n).rest = ps := by
  have hdrop : c.sent.drop (c.decoded.length + 1) = (c.sent.drop c.decoded.length).tail := by
    rw [List.tail_drop]
  simp only [rest] at hrest
  simp only [rest, receive, List.length_append, List.length_singleton, hdrop, hrest, List.tail_cons]

theorem Decodes.receive (hs : c.Decodes) {p : Packet} {ps : List Packet}
    (hrest : c.rest = p :: ps) (hnext : c.sent[c.decoded.length]? = some p) (f : Reader)
    (buffer : List UInt8) : (c.receive f buffer p.bytes.length).Decodes where
  decoded := by
    have hframed := hs.framed
    rw [hrest] at hframed
    have htake : c.sent.take (c.decoded.length + 1) = c.sent.take c.decoded.length ++ [p] := by
      rw [List.take_add_one, hnext, Option.toList_some]
    simp only [Channel.receive, List.length_append, List.length_singleton, htake, List.map_append,
      ← hs.decoded, hframed.take, untilNul_append p.terminated]
    rfl
  framed := by
    have hframed := hs.framed
    rw [hrest] at hframed
    rw [rest_receive hrest]
    exact hframed.drop

/-- A `read` of another number of bytes breaks the messages apart. -/
theorem Decodes.not_receive (hs : c.Decodes) {p : Packet} {ps : List Packet}
    (hrest : c.rest = p :: ps) (hn : n ≤ c.stream.length) (hne : n ≠ p.bytes.length) (f : Reader)
    (buffer : List UInt8) : ¬ (c.receive f buffer n).Decodes := fun h => by
  have hframed := hs.framed
  rw [hrest] at hframed
  have hafter := h.framed
  rw [rest_receive hrest] at hafter
  exact hne ((hframed.drop_iff hn).mp hafter)

theorem next_decodes (hs : c.Decodes) (hok : c.Whole a) (h : c.next a = some d) : d.Decodes := by
  cases a with
  | send p =>
    cases h
    exact hs.send p
  | call f buffer =>
    obtain ⟨-, rfl⟩ := Option.ite_none_right_eq_some.mp h |>.imp_right Option.some.inj
    exact ⟨hs.decoded, hs.framed⟩
  | read n =>
    obtain ⟨⟨f, buffer⟩, -, h⟩ := Option.bind_eq_some_iff.mp h
    obtain ⟨⟨hpos, -, hle⟩, rfl⟩ := Option.ite_none_right_eq_some.mp h |>.imp_right Option.some.inj
    have hstream : c.stream ≠ [] := fun hnil => by
      rw [hnil, List.length_nil] at hle
      omega
    obtain ⟨p, ps, hrest, hnext⟩ := hs.exists_next hstream
    obtain rfl : n = p.bytes.length := hok p (by rw [hrest]; rfl)
    exact hs.receive hrest hnext f buffer

theorem next_not_decodes (hs : c.Decodes) (hnot : ¬ c.Whole a) (h : c.next a = some d) :
    ¬ d.Decodes := by
  cases a with
  | send p => exact absurd trivial hnot
  | call f buffer => exact absurd trivial hnot
  | read n =>
    obtain ⟨⟨f, buffer⟩, -, h⟩ := Option.bind_eq_some_iff.mp h
    obtain ⟨⟨-, -, hle⟩, rfl⟩ := Option.ite_none_right_eq_some.mp h |>.imp_right Option.some.inj
    simp only [Whole, not_forall] at hnot
    obtain ⟨p, hp, hne⟩ := hnot
    obtain ⟨ps, hrest⟩ := List.head?_eq_some_iff.mp hp
    exact hs.not_receive hrest hle hne f buffer

/-- Whatever is sent and however the stream is cut, the messages are decoded in order and once
each exactly if every `read` returns one whole message. -/
theorem run_decodes_iff (as : List Transfer) (c : Channel) (hrun : exec next empty as = some c) :
    Throughout next Decodes empty as ↔ StepsMeet next Whole empty as :=
  throughout_iff_stepsMeet (I := Decodes) (fun _ _ _ hs hok h => next_decodes hs hok h)
    (fun _ hs => hs) (fun _ _ _ hs hnot h => next_not_decodes hs hnot h) empty_decodes hrun

/-- A reply of 80 characters. -/
def longReply : Packet :=
  ⟨List.replicate 80 65 ++ List.replicate 20 0, .inl (by simp), by simp⟩

def shortReply : Packet := ⟨66 :: List.replicate 99 0, .inl (by simp), by simp⟩

/-- Two replies are sent before the client reads the first one. -/
def twoReplies : List Transfer :=
  [.send longReply, .send shortReply, .call .getResponseFromServer (List.replicate 100 0),
    .read 100, .call .changeDirectory (List.replicate 100 0), .read 100]

theorem run_decodes_twoReplies :
    (exec next empty twoReplies).isSome ∧ Throughout next Decodes empty twoReplies := by
  have hsome : (exec next empty twoReplies).isSome := by decide +kernel
  obtain ⟨c, hrun⟩ := Option.isSome_iff_exists.mp hsome
  exact ⟨hsome, (run_decodes_iff twoReplies c hrun).mpr (by decide +kernel)⟩

/-- One reply arrives in two pieces. -/
def twoPieces : List Transfer :=
  [.send longReply, .call .getResponseFromServer (List.replicate 100 0), .read 60,
    .call .getResponseFromServer (List.replicate 100 0), .read 40]

theorem twoPieces_decoded : (exec next empty twoPieces).map (fun c => (c.stream, c.decoded)) =
    some ([], [List.replicate 60 65, List.replicate 20 65]) := by
  decide +kernel

/-- The client takes the two pieces of one reply for two replies. -/
theorem twoPieces_not_decoded : ∃ c, exec next empty twoPieces = some c ∧ c.stream = [] ∧
    c.decoded ≠ [longReply].map Packet.text := by
  obtain ⟨c, hrun, hresult⟩ := Option.map_eq_some_iff.mp twoPieces_decoded
  obtain ⟨hstream, hdecoded⟩ := Prod.mk.inj hresult
  refine ⟨c, hrun, hstream, ?_⟩
  rw [hdecoded]
  simp

end Channel

end OsispLabs.Lab8
