import ExpertCar.MotorControl
import ExpertCar.PadBus
import ExpertCar.ArrayLoops
import ExpertCar.PadTransaction
import ExpertCar.PadHandle
import ExpertCar.ServoControl
import ExpertCar.DriveSystem
import ExpertCar.DecimalText
import ExpertCar.HumidityReading
import ExpertCar.HumidityWaveform
import ExpertCar.RecordStore
import ExpertCar.RecordReplay
import ExpertCar.CommutingRuns
import ExpertCar.LcdPanel
import ExpertCar.LcdText
import ExpertCar.LcdSharing
import ExpertCar.SlewFilter
import ExpertCar.WheelCommands
import ExpertCar.BridgePins
import ExpertCar.ServoTravel
import ExpertCar.AlarmOutputs
import ExpertCar.PressRecords
import ExpertCar.ReviewCursor
import ExpertCar.PeopleCounter
import ExpertCar.LcdRaster
import ExpertCar.LcdStrings
import ExpertCar.SpiWire
import ExpertCar.CheckedInt
import ExpertCar.GuiLine
import ExpertCar.GuiBoxes
import ExpertCar.GuiCircle
import ExpertCar.KernelTurns
import ExpertCar.PwmSignals
import ExpertCar.KeyInterrupts
import ExpertCar.PadWire
import ExpertCar.DisplayLoop
import ExpertCar.AlarmPulse
import ExpertCar.MicroDelay
import ExpertCar.PrintNumber
import ExpertCar.KernelPrint
