import Mathlib.Data.List.Basic

/-!
# Messages in a stream

A stream keeps the elements of the messages that are written to it, but not where one ends and the
next begins. A reader that takes a number of elements gets a message exactly when it takes as many
as the next message has.
-/
namespace OsispLabs.Lib

variable {α : Type*} {stream message : List α} {messages : List (List α)} {n : ℕ}

/-- The stream consists of these messages, one after the other. -/
def Framed (stream : List α) (messages : List (List α)) : Prop := stream = messages.flatten

theorem framed_nil : Framed ([] : List α) [] := rfl

theorem Framed.write (h : Framed stream messages) (message : List α) :
    Framed (stream ++ message) (messages ++ [message]) := by
  rw [Framed, h, List.flatten_append, List.flatten_singleton]

theorem Framed.take (h : Framed stream (message :: messages)) :
    stream.take message.length = message := by
  rw [h, List.flatten_cons, List.take_left]

theorem Framed.drop (h : Framed stream (message :: messages)) :
    Framed (stream.drop message.length) messages := by
  rw [Framed, h, List.flatten_cons, List.drop_left]

/-- What is left of the stream consists of the other messages only if one message was taken. -/
theorem Framed.drop_iff (h : Framed stream (message :: messages)) (hn : n ≤ stream.length) :
    Framed (stream.drop n) messages ↔ n = message.length := by
  constructor
  · intro hdrop
    have hlen := congrArg List.length hdrop
    have hall := congrArg List.length h
    rw [List.flatten_cons, List.length_append] at hall
    rw [List.length_drop] at hlen
    omega
  · rintro rfl
    exact h.drop

end OsispLabs.Lib
