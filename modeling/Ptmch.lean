import Ptmch.Machine.Run
import Ptmch.Machine.Agree
import Ptmch.Machine.Pulse
import Ptmch.Machine.Ring
import Ptmch.Machine.Line
import Ptmch.Machine.Circular
import Ptmch.Trg.Basic
import Ptmch.Trg.Bus
import Ptmch.Trg.Step
import Ptmch.Trg.Clear
import Ptmch.Trg.Timing
import Ptmch.Trg.Torn
import Ptmch.Trg.Frame
import Ptmch.Trg.Equiv.Sync
import Ptmch.Trg.Equiv.Shift
import Ptmch.Trg.Equiv.Frame
import Ptmch.Trg.Equiv.Pipeline
import Ptmch.Trg.Equiv.Trigger
import Ptmch.Trg.Equiv.Capture
import Ptmch.Trg.Equiv.OneFiring
import Ptmch.Trg.Equiv.OneShot
import Ptmch.Trg.Equiv.PulseWidth
import Ptmch.Trg.Equiv.Selected
import Ptmch.Trg.Equiv.FrameClear
import Ptmch.Trg.Equiv.Timing
import Ptmch.Trg.Equiv.Torn
import Ptmch.Trg.Equiv.PowerUp
import Ptmch.Trg.Equiv.FirstBit
import Ptmch.CLib.CString
import Ptmch.CLib.Stdio
import Ptmch.CLib.Printf
import Ptmch.Cmd.Basic
import Ptmch.Cmd.Equiv.Edit
import Ptmch.Cmd.Equiv.InPlace
import Ptmch.Cmd.Equiv.Dispatch
import Ptmch.Cmd.Equiv.Line
import Ptmch.Cmd.Equiv.Fill
import Ptmch.Cmd.Equiv.Session
import Ptmch.Cmd.Console
import Ptmch.Cmd.Equiv.Console
import Ptmch.Cmd.Equiv.Script
import Ptmch.JtagUart.Device
import Ptmch.JtagUart.Driver
import Ptmch.JtagUart.Program
import Ptmch.JtagUart.Equiv.Device
import Ptmch.JtagUart.Equiv.Traffic
import Ptmch.JtagUart.Equiv.Step
import Ptmch.JtagUart.Equiv.Rx
import Ptmch.JtagUart.Equiv.Tx
import Ptmch.JtagUart.Equiv.Interrupt
import Ptmch.JtagUart.Equiv.Progress
import Ptmch.JtagUart.Equiv.Calls
import Ptmch.JtagUart.Equiv.Return
import Ptmch.JtagUart.Equiv.Program
import Ptmch.Hal.File
import Ptmch.Hal.Equiv.Pool
import Ptmch.Hal.Equiv.Call
import Ptmch.Hal.Equiv.Run
import Ptmch.Hal.Alarm
import Ptmch.Hal.Equiv.Alarm
import Ptmch.Hal.Equiv.Period
import Ptmch.ClockCrosser.Device
import Ptmch.ClockCrosser.Equiv.Safety
import Ptmch.ClockCrosser.Equiv.Progress
import Ptmch.ClockCrosser.Equiv.Beats
