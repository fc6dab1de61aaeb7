import ByteQueue.Encoder.Basic

/-! The encoder as a program: messages on standard output, the log on standard error. -/

/-- Runs the encoder on the arguments of the command line, in a process with 47 bits of address
space. -/
def main (arguments : List String) : IO UInt32 := do
  let platform := ByteQueue.Encoder.Platform.bounded 0x800000000000
  let exit := ByteQueue.Encoder.execute platform arguments
  for note in exit.notes do
    IO.eprintln (note.line platform)
  if exit.showsUsage then
    IO.eprintln (ByteQueue.Encoder.Plan.usage platform)
  let output ← IO.getStdout
  output.write exit.output.array
  output.flush
  return exit.status.toUInt32
