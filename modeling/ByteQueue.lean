import ByteQueue.Encoder.Reader
import ByteQueue.Log.History
import ByteQueue.Log.Logger
import ByteQueue.Main
import ByteQueue.Proofs.Encoder.Decoding
import ByteQueue.Proofs.Encoder.Output
import ByteQueue.Proofs.Log.Naming
import ByteQueue.Proofs.Queue.Discipline
import ByteQueue.Proofs.Queue.Fifo
import ByteQueue.Proofs.Queue.Fragmentation
import ByteQueue.Proofs.Queue.Layout
import ByteQueue.Proofs.Queue.Ledger
import ByteQueue.Proofs.Queue.Refusal
import ByteQueue.Proofs.Queue.Representation
import ByteQueue.Proofs.Queue.Undisturbed
import ByteQueue.Proofs.Queue.ZeroCopy
import ByteQueue.Proofs.Session.Logging
import ByteQueue.Proofs.Session.Printing
import ByteQueue.Proofs.Write.Agreement
import ByteQueue.Proofs.Write.Attempts
import ByteQueue.Proofs.Write.Course
import ByteQueue.Proofs.Write.Exchange
import ByteQueue.Proofs.Write.Overclaim
import ByteQueue.Proofs.Write.Rounds
import ByteQueue.Proofs.Write.Single
import ByteQueue.Session.Bench
import ByteQueue.Session.Transcript
import ByteQueue.Proofs.Handle
import ByteQueue.Proofs.Queue.Additivity
import ByteQueue.Proofs.Session.Windows
import ByteQueue.ByteIterator
import ByteQueue.Proofs.Text.Dump
import ByteQueue.Proofs.Text.Formatting
import ByteQueue.Proofs.Log.Verbosity
import ByteQueue.Proofs.Settings.Printout
import ByteQueue.Proofs.Text.Token
