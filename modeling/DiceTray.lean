import DiceTray.Cursor
import DiceTray.Main
import DiceTray.Proofs.Agreement
import DiceTray.Proofs.Joining
import DiceTray.Proofs.Layout
import DiceTray.Proofs.Printing
import DiceTray.Proofs.Rollable
import DiceTray.Proofs.Stops
import DiceTray.Proofs.Stream
import DiceTray.Proofs.Range
import DiceTray.Proofs.Places
import DiceTray.Proofs.FirstLine
import DiceTray.Proofs.CommandLine
import DiceTray.Proofs.Conservation
import DiceTray.Proofs.Determinism
import DiceTray.Proofs.Local
import DiceTray.Proofs.LongestPrefix
import DiceTray.Proofs.DeadEnds
import DiceTray.Proofs.Merging
import DiceTray.Proofs.Describing
import DiceTray.Proofs.Numbers
import DiceTray.Proofs.Readings
import DiceTray.Proofs.LoopBounds
import DiceTray.Proofs.Nested
import DiceTray.Proofs.Locality
import DiceTray.Proofs.Clones
import DiceTray.Roller.Peekable
