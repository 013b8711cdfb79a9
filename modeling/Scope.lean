import Scope.Native.LaserTop
import Scope.Spec.BurstCredit
import Scope.Spec.DriverPulses
import Scope.Spec.EnableOutputs
import Scope.Spec.IrResync
import Scope.Spec.IrRxGrammar
import Scope.Spec.IrRxProgress
import Scope.Spec.LightSteers
import Scope.Spec.LinkReset
import Scope.Spec.MonitorLines
import Scope.Spec.SpiralPulses
