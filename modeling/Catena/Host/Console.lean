import Catena.Session.Interpreter

/-!
# Embedding programs

A world for an embedding program that works on it command by command. Unlike inside a turn, taking
turns is possible here.
-/

namespace Catena

/-- A world from nothing, in which the embedding program can call the built-in words. -/
def Host.newWorld : World :=
  let (w, env) := World.newBuiltinRoot {}
  { w with host := { w.host with env } }

/-- Carries out one command from outside of turns. -/
def World.command (w : World) : Host.Command → World × Host.Answer
  | .run limit =>
    match w.drain limit with
    | (w, .ok taken) => (w, .count taken)
    | (w, .error e) => (w, .failure e)
  | other => w.carryOut other

end Catena
