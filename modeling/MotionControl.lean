import MotionControl.Drive.Endstops
import MotionControl.Hand
import MotionControl.Machine
import MotionControl.Proofs.Ring.Fifo
import MotionControl.Settings.Load
import MotionControl.Proofs.Ring.Holds
import MotionControl.Proofs.Ring.Locks
import MotionControl.Proofs.Ring.Session
import MotionControl.Proofs.Ring.Simulation
import MotionControl.Proofs.Ring.Runs
import MotionControl.Proofs.Motion.Course
import MotionControl.Proofs.Motion.Flow
import MotionControl.Proofs.Motion.Tick
import MotionControl.Proofs.Motion.Balance
import MotionControl.Proofs.Motion.Story
import MotionControl.Proofs.Motion.Scribe
import MotionControl.Proofs.Motion.Changes
import MotionControl.Proofs.Motion.Loop
import MotionControl.Proofs.Motion.Moves
import MotionControl.Proofs.Motion.Pipeline
import MotionControl.Proofs.Motion.Runs
import MotionControl.Proofs.Ring.Ownership
import MotionControl.Proofs.Ring.Work
import MotionControl.Proofs.Motion.Stroke
import MotionControl.Proofs.Motion.Reach
import MotionControl.Proofs.Motion.Moments
import MotionControl.Proofs.Motion.Duties
import MotionControl.Proofs.Motion.Errands
import MotionControl.Proofs.Motion.Groups
import MotionControl.Proofs.Motion.Agreement
import MotionControl.Proofs.Motion.Watch
import MotionControl.Proofs.Motion.Straight
import MotionControl.Proofs.Motion.Stopping
import MotionControl.Proofs.Motion.Halting
import MotionControl.Proofs.Single.Counts
import MotionControl.Proofs.Motion.Pace
import MotionControl.Proofs.Motion.Progress
import MotionControl.Proofs.Binary.Codec
import MotionControl.Proofs.Settings.RoundTrip
import MotionControl.Proofs.Drive.Edges
import MotionControl.Proofs.Drive.Rig
import MotionControl.Proofs.Single.Rounding
import MotionControl.Proofs.Single.Value
import MotionControl.Proofs.Single.Arithmetic
import MotionControl.Proofs.Lookahead.Speeds
import MotionControl.Proofs.Lookahead.Passes
import MotionControl.Proofs.Ring.Parts
import MotionControl.Proofs.Lookahead.Line
import MotionControl.Proofs.Lookahead.Planned
import MotionControl.Proofs.Motion.Passing
import MotionControl.Proofs.Motion.Roster
import MotionControl.Proofs.Motion.Junctions
import MotionControl.Proofs.Motion.Profiles
import MotionControl.Proofs.Drive.Failures
import MotionControl.Proofs.Drive.Strays
import MotionControl.Proofs.Lookahead.Trapezoid
import MotionControl.Proofs.Single.Alike
import MotionControl.Proofs.Lookahead.Memory
import MotionControl.Proofs.Ring.Twins
import MotionControl.Proofs.Motion.Aside
import MotionControl.Proofs.Motion.Abreast
import MotionControl.Proofs.Motion.Replanning
import MotionControl.Proofs.Single.Order
import MotionControl.Proofs.Lookahead.Consistency
import MotionControl.Proofs.Lookahead.Carriers
import MotionControl.Proofs.Motion.Recalculation
import MotionControl.Proofs.Motion.Sending
import MotionControl.Proofs.Motion.Answers
import MotionControl.Proofs.Motion.Standstill
import MotionControl.Proofs.Ring.Annals
import MotionControl.Proofs.Single.Bounds
import MotionControl.Proofs.Motion.Ramps
import MotionControl.Proofs.Motion.Clerk
import MotionControl.Proofs.Ring.Afresh
import MotionControl.Proofs.Motion.Flushing
import MotionControl.Proofs.Motion.Waits
import MotionControl.Proofs.Ring.Tally
import MotionControl.Proofs.Single.Errors
import MotionControl.Proofs.Settings.Clamping
import MotionControl.Proofs.Toolhead.Feed
import MotionControl.Proofs.Toml.Keys
import MotionControl.Proofs.Settings.Tables
import MotionControl.Proofs.Settings.Assignment
import MotionControl.Proofs.Settings.Spelling
import MotionControl.Proofs.Settings.Validation
import MotionControl.Proofs.Motion.Phase
import MotionControl.Proofs.Motion.Arrival
